import Parsip.Resource.Store

-- What the index of a store comes to after any number of files.

namespace Parsip

-- A file as it stands in the index.
abbrev Offer := PosixPath.Path × ResourceInfo

namespace LocalResourceStore

variable {s s' : LocalResourceStore} {os os' : List Offer} {o : Offer} {dir path : PosixPath.Path}
variable {file : Except Error OpenedFile} {id : ResourceId} {info : ResourceInfo}

-- Of several files with the same contents the last one counts.
def lastOffer (os : List Offer) (id : ResourceId) : Option Offer :=
  os.reverse.find? (·.snd.id = id)

def Indexes (s : LocalResourceStore) (os : List Offer) : Prop :=
  ∀ id, s.index.lookup id = lastOffer os id

theorem indexes_empty : Indexes ⟨∅⟩ [] :=
  fun _ => rfl

theorem lastOffer_id (h : lastOffer os id = some o) : o.snd.id = id := by
  simpa using List.find?_some h

theorem Indexes.insert (h : s.Indexes os) : Indexes ⟨s.index.insert o.snd.id o⟩ (os ++ [o]) := by
  intro id
  simp only [lastOffer, Table.lookup_insert, List.reverse_concat, List.find?_cons, h id, eq_comm (a := id)]
  split <;> simp_all

theorem Indexes.getPath (h : s.Indexes os) : s.getPath id = (lastOffer os id).map Prod.fst := by
  rw [LocalResourceStore.getPath, h id]

-- The list has every resource once.
theorem Indexes.mem_listResources (h : s.Indexes os) :
    info ∈ s.listResources ↔ ∃ path, lastOffer os info.id = some (path, info) := by
  simp only [listResources, List.mem_map, Table.mem_values]
  constructor
  case mp =>
    rintro ⟨⟨path, info⟩, ⟨id, hi⟩, rfl⟩
    rw [h id] at hi
    obtain rfl := lastOffer_id hi
    exact ⟨path, hi⟩
  case mpr =>
    intro ⟨path, hi⟩
    exact ⟨(path, info), ⟨info.id, by rw [h, hi]⟩, rfl⟩

theorem Indexes.nodup_listResources (h : s.Indexes os) : (s.listResources.map ResourceInfo.id).Nodup := by
  have hk : s.index.toList.map (·.snd.snd.id) = s.index.toList.map Prod.fst := by
    refine List.map_congr_left fun (id, o) he => ?_
    rw [Table.mem_toList, h id] at he
    exact lastOffer_id he
  simp only [listResources, Table.values, List.map_map]
  exact hk ▸ Table.nodup_keys

variable [Crypto]

-- What `hash_file` has to offer, unless it fails or panics.
def offer (path : PosixPath.Path) : Except Error OpenedFile → Option Offer
  | .ok ⟨.ok size, contents⟩ =>
    PosixPath.fileName path |>.map fun name => (path, ⟨⟨Crypto.sha256 contents⟩, String.ofList name, size⟩)
  | .ok ⟨.error _, _⟩ | .error _ => none

theorem hashFile_cases (s : LocalResourceStore) (path : PosixPath.Path) (file : Except Error OpenedFile) :
    (∃ o, offer path file = some o ∧
      s.hashFile path file = .ok ((o.snd.id, o.snd), ⟨s.index.insert o.snd.id o⟩)) ∨
    offer path file = none ∧
      ((∃ e, s.hashFile path file = .error (.error e)) ∨
        s.hashFile path file = .error .panic ∧ PosixPath.fileName path = none) := by
  match file with
  | .error _ | .ok ⟨.error _, _⟩ => exact .inr ⟨rfl, .inl ⟨_, rfl⟩⟩
  | .ok ⟨.ok size, contents⟩ =>
    simp only [hashFile, offer]
    cases PosixPath.fileName path
    case none   => exact .inr ⟨rfl, .inr ⟨rfl, rfl⟩⟩
    case some n => exact .inl ⟨_, rfl, rfl⟩

-- Only a regular file of the directory is hashed.
def entryOffer (dir : PosixPath.Path) : Except Error DirEntry → Option Offer
  | .ok entry => if entry.isFile = .ok true then offer (PosixPath.join dir entry.name) entry.file else none
  | .error _  => none

def scanned (dir : PosixPath.Path) : Except Error (List (Except Error DirEntry)) → List Offer
  | .ok entries => entries.filterMap (entryOffer dir)
  | .error _    => []

theorem scanEntry_indexes (dir : PosixPath.Path) (entry : Except Error DirEntry) (h : s.Indexes os) :
    ∃ s', scanEntry dir s entry = .ok s' ∧ s'.Indexes (os ++ (entryOffer dir entry).toList) := by
  cases entry
  case error => exact ⟨s, rfl, by simpa [entryOffer] using h⟩
  case ok entry =>
    simp only [scanEntry, entryOffer]
    split
    case h_2 hf | h_3 hf => exact ⟨s, rfl, by simpa [hf] using h⟩
    case h_1 hf =>
      obtain ⟨o, ho, hh⟩ | ⟨ho, ⟨e, hh⟩ | ⟨_, hn⟩⟩ := 
        hashFile_cases s (PosixPath.join dir entry.name) entry.file
      case inl         => exact ⟨_, by rw [hh], by simpa [hf, ho] using h.insert⟩
      case inr.inl     => exact ⟨s, by rw [hh], by simpa [hf, ho] using h⟩
      case inr.inr     => rw [PosixPath.fileName_join_name entry.plain] at hn; contradiction

-- Scanning the shared directory never panics.
theorem new_indexes (dir : PosixPath.Path) (entries : Except Error (List (Except Error DirEntry))) :
    ∃ s, new dir entries = .ok s ∧ s.Indexes (scanned dir entries) := by
  cases entries
  case error => exact ⟨_, rfl, indexes_empty⟩
  case ok entries =>
    suffices hs : ∀ {s os}, Indexes s os →
        ∃ s', entries.foldlM (scanEntry dir) s = .ok s' ∧ s'.Indexes (os ++ entries.filterMap (entryOffer dir)) by
      simpa [new, scanned] using hs indexes_empty
    induction entries
    case nil => exact fun {s os} h => ⟨s, rfl, by simpa using h⟩
    case cons entry entries hi =>
      intro s os h
      obtain ⟨s₁, hs, h₁⟩ := scanEntry_indexes dir entry h
      obtain ⟨s₂, hr, h₂⟩ := hi h₁
      refine ⟨s₂, by rw [List.foldlM_cons, hs]; exact hr, ?_⟩
      cases he : entryOffer dir entry <;> simpa [he] using h₂

end LocalResourceStore
end Parsip
