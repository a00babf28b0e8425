import Parsip.Daemon.History
import Parsip.Daemon.Theorems.EventHandler
import Parsip.Resource.Theorems.Sharing

-- What a daemon lets its peers have.

namespace Parsip

open Transition LocalResourceStore

namespace Daemon

variable {d d' : Daemon} {env : Env} {fx : List Effect} {p : PeerId} {r : UInt32} {id : ResourceId}
variable {e : PeerEvent} {msg : Message} {response : ControlResponse} {sender : ReplyTo} {name path : String}
variable {os : List Offer}

theorem finish_store (h : d.finish r response = (d', fx)) : d'.store = d.store := by
  rw [finish_eq h]

theorem disconnected_store (h : d.disconnected env p = (d', fx)) : d'.store = d.store := by
  simp only [disconnected] at h
  obtain rfl : _ = d' := congrArg Prod.fst h
  exact cancelTransfers_preserves (P := fun d' => d'.store = d.store) (fun _ h hc => (finish_store hc).trans h) rfl

theorem handleMessage_store (h : d.handleMessage env p msg = (d', fx)) : d'.store = d.store := by
  cases msg <;> simp only [handleMessage] at h
  case listResources | hello | helloProof => cases h; rfl
  case downloadResource                   => split at h <;> cases h <;> rfl
  case resourceList                       => exact (finish_store h).trans rfl
  case resourceChunk =>
    split at h
    case h_1 => split at h <;> cases h <;> rfl
    case h_2 => cases h; rfl
  case resourceEnd =>
    split at h
    case h_2 => cases h; rfl
    case h_1 =>
      split at h
      case h_1 => exact (finish_store h).trans rfl
      case h_2 => cases h; rfl

-- A list that tells of every resource on offer once, as it has last been offered.
structure Lists (os : List Offer) (rs : List ResourceInfo) : Prop where
  nodup : (rs.map ResourceInfo.id).Nodup
  exact : ∀ {info}, info ∈ rs ↔ ∃ path, lastOffer os info.id = some (path, info)

theorem lists_of_indexes (hi : d.store.Indexes os) : Lists os d.store.listResources where
  nodup := hi.nodup_listResources
  exact := hi.mem_listResources

variable [Crypto]

-- What a client adds.
def offered (env : Env) : PeerEvent → Option Offer
  | .controlRequest (.addResource path) _ =>
    let p := expandPath env path.toList
    offer p (env.openFile p)
  | _ => none

theorem addResource_indexes (h : d.addResource env sender path = .ok (d', fx)) (hi : d.store.Indexes os) :
    d'.store.Indexes (os ++ (offered env (.controlRequest (.addResource path) sender)).toList) := by
  simp only [addResource, LocalResourceStore.addResource] at h
  simp only [offered]
  obtain ⟨o, ho, hh⟩ | ⟨ho, ⟨e, hh⟩ | ⟨hh, _⟩⟩ := 
    hashFile_cases d.store (expandPath env path.toList) (env.openFile (expandPath env path.toList))
  case inl     => rw [hh] at h; cases h; simpa [ho] using hi.insert
  case inr.inl => rw [hh] at h; cases h; simpa [ho] using hi
  case inr.inr => rw [hh] at h; contradiction

-- Only a client that adds a file changes what is offered.
theorem handleControl_indexes {cmd : ControlMessage} (h : d.handleControl env sender cmd = .ok (d', fx))
    (hi : d.store.Indexes os) : d'.store.Indexes (os ++ (offered env (.controlRequest cmd sender)).toList) := by
  cases cmd <;> simp only [handleControl] at h
  case addResource => exact addResource_indexes h hi
  all_goals
    suffices hs : d'.store = d.store by simpa [offered, hs] using hi
  case scan                    => split at h <;> cases h <;> rfl
  case connect | listResources => split at h <;> cases h <;> rfl
  case listPeers               => cases h; rfl
  case getResource =>
    obtain ⟨rfl, _⟩ | ⟨_, _, _, _, _, _, _, _, hs, _⟩ := getResource_spec (Except.ok.inj h)
    case inl => rfl
    case inr => exact hs

theorem handleEvent_indexes (h : d.handleEvent env e = .ok (d', fx)) (hi : d.store.Indexes os) :
    d'.store.Indexes (os ++ (offered env e).toList) := by
  cases e <;> simp only [handleEvent] at h
  case controlRequest => exact handleControl_indexes h hi
  all_goals
    suffices hs : d'.store = d.store by simpa [offered, hs] using hi
  case discovered =>
    cases h
    simp only [discovered]
    split <;> rfl
  case newConnection               => cases h; rfl
  case disconnected                => exact disconnected_store (Except.ok.inj h)
  case message                     => exact handleMessage_store (Except.ok.inj h)
  case scanTimeout | connectResult => exact finish_store (Except.ok.inj h)

-- Peers get what is on offer if they ask for it, and nothing else.
structure Shares (d : Daemon) (os : List Offer) : Prop where
  uploads : ∀ {env e d' fx target r id path}, d.handleEvent env e = .ok (d', fx) →
    (.upload target r id path ∈ fx ↔
      e = .message target (.downloadResource r id) ∧ ∃ info, lastOffer os id = some (path, info))
  listings : ∀ {env e d' fx target r rs}, d.handleEvent env e = .ok (d', fx) →
    .send target (.resourceList r rs) ∈ fx → e = .message target (.listResources r) ∧ Lists os rs
  answers : ∀ env target r, ∃ rs,
    d.handleEvent env (.message target (.listResources r)) = .ok (d, [.send target (.resourceList r rs)]) ∧ Lists os rs

theorem shares_of_indexes (hi : d.store.Indexes os) : Shares d os where
  answers env target r := ⟨_, rfl, lists_of_indexes hi⟩
  listings h hf := by
    cases handleEvent_emits h hf
    cases h
    cases List.mem_singleton.mp hf
    exact ⟨rfl, lists_of_indexes hi⟩
  uploads {env e d' fx target r id path} h := by
    have hu (he : e = .message target (.downloadResource r id)) :
        .upload target r id path ∈ fx ↔ ∃ info, lastOffer os id = some (path, info) := by
      subst he
      simp only [handleEvent, handleMessage, hi.getPath] at h
      cases ho : lastOffer os id <;> simp only [ho, Option.map_none, Option.map_some] at h <;> cases h
      case none   => simp
      case some o => simp [Prod.ext_iff, eq_comm]
    constructor
    case mp =>
      intro hf
      cases handleEvent_emits h hf
      exact ⟨rfl, (hu rfl).mp hf⟩
    case mpr =>
      rintro ⟨he, ho⟩
      exact (hu he).mpr ho

end Daemon

namespace Monitor

variable [Crypto] {s s' : Monitor} {ls : List Action} {os : List Offer}

-- The files that a run adds.
def added : List Action → List Offer :=
  List.filterMap fun
    | .handle env e             => Daemon.offered env e
    | .writer .. | .detached .. => none

theorem step_indexes {a : Action} (h : s.step a = some s') (hi : s.daemon.store.Indexes os) :
    s'.daemon.store.Indexes (os ++ added [a]) := by
  cases a <;> simp only [step] at h
  case handle env e =>
    split at h <;> cases h
    case h_1 d fx hd =>
      have := Daemon.handleEvent_indexes hd hi
      cases ho : Daemon.offered env e <;> simpa [added, ho] using this
  case writer id faults =>
    obtain ⟨d, hd, rfl⟩ := Option.map_eq_some_iff.mp h
    simp only [Daemon.turnWriter] at hd
    split at hd
    case h_2 => contradiction
    case h_1 =>
      obtain ⟨_, _, rfl⟩ := Option.map_eq_some_iff.mp hd
      simpa [added] using hi
  case detached i faults =>
    obtain ⟨d, hd, rfl⟩ := Option.map_eq_some_iff.mp h
    simp only [Daemon.turnDetached] at hd
    split at hd
    case h_2 => contradiction
    case h_1 =>
      obtain ⟨_, _, rfl⟩ := Option.map_eq_some_iff.mp hd
      simpa [added] using hi

theorem run_indexes (r : Run system s ls s') (hi : s.daemon.store.Indexes os) :
    s'.daemon.store.Indexes (os ++ added ls) := by
  induction r generalizing os
  case refl => simpa [added] using hi
  case step s₁ a s₂ ls s₃ h _ ih =>
    have := ih (step_indexes h hi)
    rwa [List.append_assoc, added, ← List.filterMap_append] at this

-- What a daemon shares is at every time what its shared directory held when it started and what its
-- clients have added since.
theorem shares_exact (dir : PosixPath.Path) (entries : Except Error (List (Except Error DirEntry))) :
    ∃ store, LocalResourceStore.new dir entries = .ok store ∧ ∀ {downloadsDir disk ls s},
      Run system ⟨.new store downloadsDir disk, .empty⟩ ls s → s.daemon.Shares (scanned dir entries ++ added ls) := by
  obtain ⟨store, hs, hi⟩ := new_indexes dir entries
  exact ⟨store, hs, fun r => Daemon.shares_of_indexes <| run_indexes r hi⟩

-- A photo and a link in the shared directory, and then a copy of the photo that is added.
def picture : OpenedFile :=
  ⟨.ok 3, [1, 2, 3]⟩

def entries : Except Error (List (Except Error DirEntry)) :=
  .ok [.ok ⟨"photo".toList, by decide, .ok true, .ok picture⟩, .ok ⟨"link".toList, by decide, .ok false, .ok ⟨.ok 1, [4]⟩⟩]

def adding : List Action :=
  [.handle { Env.fine 0 with openFile := fun _ => .ok picture } <| .controlRequest (.addResource "~/copy") 7]

def pictures : List Offer :=
  let id := ⟨Crypto.pad 32 [1, 2, 3]⟩
  [("/shared/photo".toList, ⟨id, "photo", 3⟩), ("./copy".toList, ⟨id, "copy", 3⟩)]

omit [Crypto] in
theorem shares_exact_pictures :
    let _ := Crypto.transparent
    ∃ store s, LocalResourceStore.new "/shared".toList entries = .ok store ∧
      Run system ⟨.new store "/downloads".toList .empty, .empty⟩ adding s ∧ s.daemon.Shares pictures := by
  let _ := Crypto.transparent
  obtain ⟨store, hn, hs⟩ := shares_exact "/shared".toList entries
  have hp : scanned "/shared".toList entries ++ added adding = pictures := by decide +kernel
  have hr : (adding.foldlM step ⟨.new store "/downloads".toList .empty, .empty⟩).isSome := rfl
  have r := Run.ofFn (i := Initial) (Option.some_get hr).symm
  exact ⟨store, _, hn, r, hp ▸ hs r⟩

end Monitor
end Parsip
