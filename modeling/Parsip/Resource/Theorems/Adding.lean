import Parsip.Resource.Adding

-- What becomes of a file that a client adds.

namespace Parsip

variable {file : Except Error File} {f : File} {path : PosixPath.Path}

namespace File

-- What `file.read` shows of a file up to its first failure.
def opened (f : File) : OpenedFile where
  metadata := f.metadata
  contents := LocalResourceStore.hashed f.reads

end File

namespace LocalResourceStore

theorem hashed_pieces {ps : List Bytes} {last : Except Error Bytes} (h : ∀ p ∈ ps, p ≠ [])
    (hl : last = .ok [] ∨ ∃ e, last = .error e) : hashed (ps.map .ok ++ [last]) = ps.flatten := by
  induction ps
  case nil => obtain rfl | ⟨e, rfl⟩ := hl <;> rfl
  case cons p ps hi =>
    have hp : p.length ≠ 0 := fun hz => h p (List.mem_cons_self ..) (List.length_eq_zero_iff.mp hz)
    simp only [List.map_cons, List.cons_append, hashed, if_neg hp, List.flatten_cons]
    rw [hi fun p hm => h p (List.mem_cons_of_mem _ hm)]

theorem hashed_reads : hashed f.reads = f.pieces.flatten := by
  refine hashed_pieces (fun p hp => (f.bounded p hp).left) ?_
  cases f.failure
  case none   => exact .inl rfl
  case some e => exact .inr ⟨e, rfl⟩

variable [Crypto] {s s' : LocalResourceStore}

-- Read by read, `add_resource` is what it is on the bytes up to the first failure.
theorem addResource_opened : s.addResource path (file.map File.opened) =
    match s.addResourceFrom path file with
    | .ok (.ok result, s') => .ok (result, s')
    | .ok (.error e, _)    => .error (.error e)
    | .error e             => .error e := by
  simp only [addResource, hashFile, addResourceFrom, hashFileFrom]
  cases file
  case error => rfl
  case ok f =>
    simp only [Except.map, File.opened]
    cases f.metadata
    case error => rfl
    case ok    => cases PosixPath.fileName path <;> rfl

-- A failure leaves the index as it is, and otherwise it has got a file under the hash of its contents.
def AllOrNothing (s : LocalResourceStore) (path : PosixPath.Path) (file : Except Error File) : Prop :=
  match s.addResourceFrom path file with
  | .error _                 => False
  | .ok (.error _, s')       => s' = s
  | .ok (.ok (id, info), s') => ∃ f contents, file = .ok f ∧ f.contents = some contents ∧
    id = ⟨Crypto.sha256 contents⟩ ∧ info.size.toNat = contents.length ∧
    s'.index.lookup id = some (path, info) ∧ ∀ id' ≠ id, s'.index.lookup id' = s.index.lookup id'

-- The path has a last component, and the reads come to the end of a file of the size that its metadata
-- says. A file that hashes like the part of it that has been read makes no difference.
def Readable (path : PosixPath.Path) (f : File) (size : UInt64) : Prop :=
  PosixPath.fileName path ≠ none ∧ ∃ contents, f.contents = some contents ∧ size.toNat = contents.length ∧
    (f.failure = none ∨ Crypto.sha256 f.pieces.flatten = Crypto.sha256 contents)

-- Adding a file is all or nothing exactly when opening it fails, or the call for its metadata, or the
-- file can be read to its end.
theorem allOrNothing_iff : s.AllOrNothing path file ↔
    ∀ f, file = .ok f → ∀ size, f.metadata = .ok size → Readable path f size := by
  simp only [AllOrNothing, addResourceFrom, hashFileFrom]
  cases file
  case error e => simp
  case ok f =>
    cases hm : f.metadata
    case error e => simp [hm]
    case ok size =>
      cases hn : PosixPath.fileName path
      case none => simp [hm, Readable, hn]
      case some name =>
        simp only [hashed_reads, Readable, hn, Except.ok.injEq, forall_eq', hm]
        constructor
        case mp =>
          rintro ⟨_, contents, rfl, hc, hi, hs, _⟩
          exact ⟨by simp, contents, hc, hs, .inr (ResourceId.mk.inj hi)⟩
        case mpr =>
          rintro ⟨_, contents, hc, hs, hr⟩
          have hi : Crypto.sha256 f.pieces.flatten = Crypto.sha256 contents := by
            obtain hf | hr := hr
            case inr => exact hr
            case inl => rw [Option.some.inj <| (f.complete hf).symm.trans hc]
          refine ⟨f, contents, rfl, hc, by rw [hi], hs, by simp, fun id' hn => ?_⟩
          simp [hn]

-- A file whose second read fails, and the root directory.
def torn : File where
  metadata := .ok 3
  contents := some [1, 2, 3]
  pieces   := [[1, 2]]
  failure  := some ⟨.other, "Input/output error (os error 5)"⟩
  bounded  := by decide
  honest   := by decide
  complete := nofun

def directory : File where
  metadata := .ok 4096
  contents := none
  pieces   := []
  failure  := some ⟨.other, "Is a directory (os error 21)"⟩
  bounded  := by decide
  honest   := by decide
  complete := nofun

omit [Crypto] in
theorem torn_not_allOrNothing :
    ¬@AllOrNothing .transparent ⟨∅⟩ "/shared/photo".toList (.ok torn) ∧
      ¬@AllOrNothing .transparent ⟨∅⟩ "/".toList (.ok directory) := by
  let _ := Crypto.transparent
  constructor
  case right =>
    have h : addResourceFrom ⟨∅⟩ "/".toList (.ok directory) = .error .panic := rfl
    simp only [AllOrNothing, h, not_false_eq_true]
  case left =>
    have h : addResourceFrom ⟨∅⟩ "/shared/photo".toList (.ok torn) =
        .ok (.ok (⟨Crypto.sha256 [1, 2]⟩, ⟨⟨Crypto.sha256 [1, 2]⟩, "photo", 3⟩),
          ⟨(∅ : Table ResourceId (PosixPath.Path × ResourceInfo)).insert ⟨Crypto.sha256 [1, 2]⟩
            ("/shared/photo".toList, ⟨⟨Crypto.sha256 [1, 2]⟩, "photo", 3⟩)⟩) := rfl
    simp only [AllOrNothing, h]
    rintro ⟨f, contents, hf, hc, hi, _⟩
    cases hf
    cases hc
    exact absurd (ResourceId.mk.inj hi) (by decide)

end LocalResourceStore
end Parsip
