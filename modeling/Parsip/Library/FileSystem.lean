import Mathlib.Logic.Function.Basic
import Parsip.Library.Table

-- Files with names at places `π`. A file outlives its name for as long as somebody has it open.

abbrev Inode := Nat

-- No file has two names, and numbers from `next` on have not been given to a file yet.
structure FileSystem (π : Type*) [DecidableEq π] where
  dir : Table π Inode
  content : Inode → List UInt8
  next : Inode
  fresh : ∀ {p i}, dir.lookup p = some i → i < next
  single : ∀ {p q i}, dir.lookup p = some i → dir.lookup q = some i → p = q

-- An open file and the position of the next write.
structure FileHandle where
  inode : Inode
  pos : Nat
deriving DecidableEq

namespace FileSystem

-- A write at `pos`. A gap between the end of the file and `pos` is filled with zeros.
def overwrite (old : List UInt8) (pos : Nat) (data : List UInt8) : List UInt8 :=
  old.take pos ++ List.replicate (pos - old.length) 0 ++ data ++ old.drop (pos + data.length)

variable {π : Type*} [DecidableEq π]

def empty : FileSystem π where
  dir := ∅
  content _ := []
  next := 0
  fresh h := by simp at h
  single h := by simp at h

def write (fs : FileSystem π) (h : FileHandle) (data : List UInt8) : FileSystem π × FileHandle :=
  ({ fs with content := Function.update fs.content h.inode (overwrite (fs.content h.inode) h.pos data) },
    { h with pos := h.pos + data.length })

def unlink (fs : FileSystem π) (p : π) : FileSystem π where
  dir := fs.dir.erase p
  content := fs.content
  next := fs.next
  fresh h := by
    simp only [Table.lookup_erase, Option.ite_none_left_eq_some] at h
    exact fs.fresh h.right
  single h h' := by
    simp only [Table.lookup_erase, Option.ite_none_left_eq_some] at h h'
    exact fs.single h.right h'.right

-- Gives the file `i` the name `p`.
def link (fs : FileSystem π) (p : π) (i : Inode) (hi : i < fs.next)
    (h : ∀ {q}, fs.dir.lookup q ≠ some i) : FileSystem π where
  dir := fs.dir.insert p i
  content := fs.content
  next := fs.next
  fresh hl := by
    rw [Table.lookup_insert] at hl
    split at hl
    case isTrue  => exact Option.some.inj hl ▸ hi
    case isFalse => exact fs.fresh hl
  single hp hq := by
    rw [Table.lookup_insert] at hp hq
    split at hp <;> split at hq
    case isTrue.isTrue h₁ h₂ => exact h₁.trans h₂.symm
    case isTrue.isFalse      => cases hp; exact absurd hq h
    case isFalse.isTrue      => cases hq; exact absurd hp h
    case isFalse.isFalse     => exact fs.single hp hq

-- `O_WRONLY | O_CREAT | O_TRUNC`
def openTruncate (fs : FileSystem π) (p : π) : FileSystem π × FileHandle :=
  match fs.dir.lookup p with
  | some i => ({ fs with content := Function.update fs.content i [] }, ⟨i, 0⟩)
  | none   =>
    let created : FileSystem π := {
      dir     := fs.dir
      content := Function.update fs.content fs.next []
      next    := fs.next + 1
      fresh   := fun h => Nat.lt_succ_of_lt <| fs.fresh h
      single  := fs.single
    }
    (created.link p fs.next (Nat.lt_succ_self _) fun h => Nat.lt_irrefl _ <| fs.fresh h, ⟨fs.next, 0⟩)

-- The file at `src` is at `dst` afterwards, in place of the one that was there.
def rename (fs : FileSystem π) (src dst : π) : Option (FileSystem π) :=
  match h : fs.dir.lookup src with
  | some i =>
    some <| (fs.unlink src).link dst i (fs.fresh h) fun {q} hq => by
      simp only [unlink, Table.lookup_erase, Option.ite_none_left_eq_some] at hq
      exact hq.left <| fs.single hq.right h
  | none => none

def read (fs : FileSystem π) (p : π) : Option (List UInt8) :=
  fs.dir.lookup p |>.map fs.content

variable {fs fs' : FileSystem π} {p q src dst : π} {h : FileHandle} {data : List UInt8} {i : Inode}

theorem overwrite_end : overwrite data data.length bs = data ++ bs := by
  simp [overwrite]

@[simp] theorem write_dir : (fs.write h data).fst.dir = fs.dir := rfl
@[simp] theorem write_next : (fs.write h data).fst.next = fs.next := rfl
@[simp] theorem write_inode : (fs.write h data).snd.inode = h.inode := rfl

theorem write_content_of_ne (hi : i ≠ h.inode) : (fs.write h data).fst.content i = fs.content i :=
  Function.update_of_ne hi ..

-- A handle that has only ever been written to is at the end of its file.
def AtEnd (fs : FileSystem π) (h : FileHandle) : Prop :=
  h.pos = (fs.content h.inode).length

theorem AtEnd.write_content (e : fs.AtEnd h) :
    (fs.write h data).fst.content h.inode = fs.content h.inode ++ data := by
  calc (fs.write h data).fst.content h.inode
    _ = overwrite (fs.content h.inode) h.pos data := Function.update_self ..
    _ = fs.content h.inode ++ data                := by rw [e, overwrite_end]

theorem AtEnd.write (e : fs.AtEnd h) : (fs.write h data).fst.AtEnd (fs.write h data).snd := by
  rw [AtEnd, write_inode, e.write_content, List.length_append, ← e]
  rfl

@[simp] theorem unlink_content : (fs.unlink p).content = fs.content := rfl
@[simp] theorem unlink_next : (fs.unlink p).next = fs.next := rfl

@[simp]
theorem unlink_lookup : (fs.unlink p).dir.lookup q = if q = p then none else fs.dir.lookup q :=
  Table.lookup_erase

theorem unlink_read : (fs.unlink p).read q = if q = p then none else fs.read q := by
  rw [read, unlink_lookup]
  split <;> rfl

theorem openTruncate_atEnd : (fs.openTruncate p).fst.AtEnd (fs.openTruncate p).snd := by
  simp only [openTruncate]
  split <;> simp [AtEnd, link]

theorem openTruncate_content : (fs.openTruncate p).fst.content (fs.openTruncate p).snd.inode = [] := by
  simp only [openTruncate]
  split <;> simp [link]

theorem openTruncate_content_of_ne (hi : i ≠ (fs.openTruncate p).snd.inode) :
    (fs.openTruncate p).fst.content i = fs.content i := by
  simp only [openTruncate] at hi ⊢
  split at hi <;> simp [link, Function.update_of_ne hi]

theorem openTruncate_lookup : (fs.openTruncate p).fst.dir.lookup q =
    if q = p then some (fs.openTruncate p).snd.inode else fs.dir.lookup q := by
  simp only [openTruncate]
  split
  case h_1 hp =>
    split
    case isTrue h  => exact h ▸ hp
    case isFalse   => rfl
  case h_2 => simp [link]

-- The file is new, or it has been at `p` before.
theorem openTruncate_inode : (fs.openTruncate p).snd.inode = fs.next ∨
    fs.dir.lookup p = some (fs.openTruncate p).snd.inode := by
  simp only [openTruncate]
  split
  case h_1 hp => exact .inr hp
  case h_2    => exact .inl rfl

theorem openTruncate_next : fs.next ≤ (fs.openTruncate p).fst.next := by
  simp only [openTruncate]
  split <;> simp [link]

theorem rename_of_lookup (hs : fs.dir.lookup src = some i) : ∃ fs', fs.rename src dst = some fs' := by
  simp only [rename]
  split
  case h_1      => exact ⟨_, rfl⟩
  case h_2 hn   => rw [hn] at hs; contradiction

-- All that a renaming does.
theorem rename_cases (h : fs.rename src dst = some fs') : ∃ i, fs.dir.lookup src = some i ∧
    fs'.content = fs.content ∧ fs'.next = fs.next ∧
    ∀ q, fs'.dir.lookup q = if q = dst then some i else if q = src then none else fs.dir.lookup q := by
  simp only [rename] at h
  split at h
  case h_2 => contradiction
  case h_1 i hi =>
    cases h
    exact ⟨i, hi, rfl, rfl, fun q => by simp [link]⟩

theorem rename_read (h : fs.rename src dst = some fs') : fs'.read dst = fs.read src := by
  have ⟨i, hi, hc, _, hl⟩ := rename_cases h
  simp [read, hl, hi, hc]

end FileSystem
