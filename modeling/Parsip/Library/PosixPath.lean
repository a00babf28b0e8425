import Mathlib.Data.List.Basic
import Mathlib.Logic.Function.Iterate

-- Slash-separated paths: joining, and the place a path leads to when `.` and `..` are resolved
-- lexically.

namespace PosixPath

abbrev Path := List Char

def isAbsolute (p : Path) : Bool :=
  p.head? = some '/'

-- An absolute path replaces the base; a separator is added only after a base that does not already
-- end in one.
def join (base path : Path) : Path :=
  if isAbsolute path then path
  else if base = [] ∨ base.getLast? = some '/' then base ++ path
  else base ++ '/' :: path

-- The root or the working directory (`absolute`), the number of directories above the working
-- directory (`up`) and the names entered from there, innermost first (`names`).
@[ext]
structure Place where
  absolute : Bool
  up : Nat
  names : List (List Char)
deriving DecidableEq

namespace Place

def root : Place where
  absolute := true
  up := 0
  names := []

def here : Place where
  absolute := false
  up := 0
  names := []

def child (p : Place) (name : List Char) : Place :=
  { p with names := name :: p.names }

-- The root is its own parent.
def parent (p : Place) : Place :=
  match p.names with
  | _ :: names => { p with names := names }
  | [] => if p.absolute then p else { p with up := p.up + 1 }

def enter (p : Place) (component : List Char) : Place :=
  if component = [] ∨ component = ['.'] then p
  else if component = ['.', '.'] then p.parent
  else p.child component

-- The place reached from `p` by a way that starts at the working directory.
def follow (p way : Place) : Place :=
  let q := parent^[way.up] p
  { q with names := way.names ++ q.names }

end Place

-- Reads a path from the component `cur` on.
def walk (p : Place) (cur : List Char) : Path → Place
  | [] => p.enter cur
  | c :: path => if c = '/' then walk (p.enter cur) [] path else walk p (cur ++ [c]) path

def resolve (p : Path) : Place :=
  walk (if isAbsolute p then .root else .here) [] p

-- The last component, unless that climbs or there is none.
def fileName (p : Path) : Option (List Char) :=
  let components := p.splitOn '/' |>.filter fun c => c ≠ [] ∧ c ≠ ['.']
  components.getLast?.filter (· ≠ ['.', '.'])

def DirectlyInside (dir p : Path) : Prop :=
  ∃ name, resolve p = (resolve dir).child name

-- A component that is neither skipped nor climbs.
structure IsName (n : List Char) : Prop where
  ne_nil : n ≠ []
  ne_dot : n ≠ ['.']
  ne_dots : n ≠ ['.', '.']
  no_slash : '/' ∉ n

instance {n : List Char} : Decidable (IsName n) :=
  decidable_of_iff (n ≠ [] ∧ n ≠ ['.'] ∧ n ≠ ['.', '.'] ∧ '/' ∉ n)
    ⟨fun ⟨h₁, h₂, h₃, h₄⟩ => ⟨h₁, h₂, h₃, h₄⟩, fun ⟨h₁, h₂, h₃, h₄⟩ => ⟨h₁, h₂, h₃, h₄⟩⟩

variable {p way : Place} {cur n n₁ n₂ : List Char} {dir path path₁ path₂ : Path}

theorem Place.child_injective (h : p.child n₁ = p.child n₂) : n₁ = n₂ := by
  simp only [child, mk.injEq, List.cons.injEq] at h
  exact h.right.right.left

theorem Place.parent_absolute : p.parent.absolute = p.absolute := by
  simp only [parent]
  split
  case h_1 => rfl
  case h_2 => split <;> rfl

theorem Place.enter_absolute : (p.enter cur).absolute = p.absolute := by
  simp only [enter]
  split
  case isTrue => rfl
  case isFalse =>
    split
    case isTrue  => exact parent_absolute
    case isFalse => rfl

theorem Place.enter_name (h : IsName n) : p.enter n = p.child n := by
  simp [enter, h.ne_nil, h.ne_dot, h.ne_dots]

theorem Place.follow_of_names_nil (h : way.names = []) : p.follow way = parent^[way.up] p := by
  simp [follow, h]

theorem Place.parent_of_names_nil (h : way.absolute = false) (hn : way.names = []) :
    way.parent = { way with up := way.up + 1 } := by
  simp [parent, h, hn]

theorem Place.follow_parent (h : way.absolute = false) :
    (p.follow way).parent = p.follow way.parent := by
  cases hn : way.names
  case cons => simp [follow, parent, hn]
  case nil =>
    have hp := parent_of_names_nil h hn
    have hu : way.parent.names = [] := by simp [hp, hn]
    rw [follow_of_names_nil hn, follow_of_names_nil hu, hp, Function.iterate_succ_apply']

theorem Place.follow_enter (h : way.absolute = false) :
    (p.follow way).enter cur = p.follow (way.enter cur) := by
  simp only [enter]
  split
  case isTrue => rfl
  case isFalse =>
    split
    case isTrue  => exact follow_parent h
    case isFalse => simp [follow, child]

theorem walk_absolute : (walk p cur path).absolute = p.absolute := by
  induction path generalizing p cur <;> simp only [walk]
  case nil => exact Place.enter_absolute
  case cons hi =>
    split
    case isTrue  => rw [hi, Place.enter_absolute]
    case isFalse => exact hi

-- Walking on from a place is following the way the rest of the path describes.
theorem walk_follow (h : way.absolute = false) :
    walk (p.follow way) cur path = p.follow (walk way cur path) := by
  induction path generalizing way cur <;> simp only [walk]
  case nil => exact Place.follow_enter h
  case cons hi =>
    split
    case isTrue  => rw [Place.follow_enter h, hi (Place.enter_absolute.trans h)]
    case isFalse => exact hi h

theorem walk_slash : walk p cur (path₁ ++ '/' :: path₂) = walk (walk p cur path₁) [] path₂ := by
  induction path₁ generalizing p cur <;> simp only [List.nil_append, List.cons_append, walk]
  case nil => rfl
  case cons hi =>
    split
    case isTrue  => exact hi
    case isFalse => exact hi

theorem walk_name (h : '/' ∉ n) : walk p cur n = p.enter (cur ++ n) := by
  induction n generalizing cur
  case nil => simp [walk]
  case cons c n hi =>
    have ⟨hc, hn⟩ := List.ne_and_not_mem_of_not_mem_cons h
    rw [walk, if_neg (Ne.symm hc), hi hn, List.append_assoc, List.singleton_append]

theorem isAbsolute_append (h : path₁ ≠ []) : isAbsolute (path₁ ++ path₂) = isAbsolute path₁ := by
  cases path₁
  case nil  => contradiction
  case cons => rfl

-- A relative path continues from wherever the base leads.
theorem resolve_join (h : isAbsolute path = false) :
    resolve (join dir path) = walk (resolve dir) [] path := by
  by_cases hd : dir = []
  case pos => simp [join, resolve, h, hd, walk, Place.enter, show isAbsolute [] = false from rfl]
  case neg =>
    by_cases hl : dir.getLast? = some '/'
    case pos =>
      have ⟨d, hd'⟩ := List.getLast?_eq_some_iff.mp hl
      simp only [join, h, hl, or_true, if_true, Bool.false_eq_true, if_false, resolve,
        isAbsolute_append hd]
      simp only [hd', List.append_assoc, List.singleton_append, walk_slash, walk, Place.enter,
        true_or, if_true]
    case neg =>
      simp [join, h, hd, hl, resolve, isAbsolute_append hd, walk_slash]

theorem resolve_join_follow (h : isAbsolute path = false) :
    resolve (join dir path) = (resolve dir).follow (resolve path) := by
  calc resolve (join dir path)
    _ = walk ((resolve dir).follow .here) [] path := resolve_join h
    _ = (resolve dir).follow (walk .here [] path) := walk_follow rfl
    _ = (resolve dir).follow (resolve path)       := by simp [resolve, h]

theorem isAbsolute_name (h : IsName n) : isAbsolute n = false := by
  cases n
  case nil => rfl
  case cons c _ =>
    have := h.no_slash
    simp_all [isAbsolute, Ne.symm]

theorem resolve_join_name (h : IsName n) : resolve (join dir n) = (resolve dir).child n := by
  rw [resolve_join (isAbsolute_name h), walk_name h.no_slash, List.nil_append, Place.enter_name h]

theorem fileName_slash (h : IsName n) : fileName (path ++ '/' :: n) = some n := by
  simp [fileName, List.splitOn_append_cons_self, List.splitOn_eq_singleton h.no_slash, h.ne_nil, h.ne_dot, h.ne_dots]

theorem fileName_join_name (h : IsName n) : fileName (join dir n) = some n := by
  simp only [join, isAbsolute_name h, Bool.false_eq_true, if_false]
  split
  case isFalse => exact fileName_slash h
  case isTrue hd =>
    obtain rfl | hd := hd
    case inl => simp [fileName, List.splitOn_eq_singleton h.no_slash, h.ne_nil, h.ne_dot, h.ne_dots]
    case inr =>
      obtain ⟨d, rfl⟩ := List.getLast?_eq_some_iff.mp hd
      rw [List.append_assoc, List.singleton_append]
      exact fileName_slash h

-- A path stays directly inside every directory it is joined to exactly when it is relative and
-- leads to a single name.
theorem directlyInside_join_iff :
    (∀ dir, DirectlyInside dir (join dir path)) ↔
      isAbsolute path = false ∧ ∃ name, resolve path = Place.here.child name := by
  constructor
  case mp =>
    intro h
    have ⟨name, hn⟩ := h []
    by_cases ha : isAbsolute path
    case pos =>
      have hj : join [] path = path := by simp [join, ha]
      have hp : (resolve path).absolute = true := by rw [resolve, walk_absolute, if_pos ha]; rfl
      rw [hj] at hn
      rw [hn] at hp
      contradiction
    case neg =>
      simp only [Bool.not_eq_true] at ha
      refine ⟨ha, name, ?_⟩
      simpa [join, ha, resolve, walk, Place.enter, show isAbsolute [] = false from rfl] using hn
  case mpr =>
    intro ⟨ha, name, hn⟩ dir
    exact ⟨name, by rw [resolve_join_follow ha, hn]; rfl⟩

end PosixPath
