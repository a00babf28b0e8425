import Mathlib.Data.List.DropRight
import Mathlib.Data.List.Infix

-- Text as a list of characters: its lines, the white space around them, and the words in it.

namespace Text

-- The characters with the property `White_Space`.
def isWhitespace (c : Char) : Bool :=
  let n := c.toNat
  (0x09 ≤ n ∧ n ≤ 0x0D) ∨ n = 0x20 ∨ n = 0x85 ∨ n = 0xA0 ∨ n = 0x1680 ∨ (0x2000 ≤ n ∧ n ≤ 0x200A) ∨
    n = 0x2028 ∨ n = 0x2029 ∨ n = 0x202F ∨ n = 0x205F ∨ n = 0x3000

def trim (s : List Char) : List Char :=
  (s.dropWhile isWhitespace).rdropWhile isWhitespace

-- Lines end with a line feed or with a carriage return and a line feed, and the last one may do without.
def lines : List Char → List (List Char)
  | []                => []
  | '\n' :: s         => [] :: lines s
  | '\r' :: '\n' :: s => [] :: lines s
  | c :: s            =>
    match lines s with
    | []      => [[c]]
    | l :: ls => (c :: l) :: ls

def stripPrefix : List Char → List Char → Option (List Char)
  | [], s               => some s
  | c :: pre, c' :: s   => if c = c' then stripPrefix pre s else none
  | _ :: _, []          => none

variable {s l l' : List Char} {c : Char}

def isBreak (c : Char) : Bool :=
  c = '\n' ∨ c = '\r'

theorem lines_append (h : ∀ c ∈ l, ¬isBreak c) : lines (l ++ '\n' :: s) = l :: lines s := by
  induction l
  case nil => rw [List.nil_append, lines]
  case cons c l hi =>
    have ⟨hc, h⟩ := List.forall_mem_cons.mp h
    rw [List.cons_append, lines, hi h]
    case x_1 =>
      rintro rfl
      exact hc rfl
    case x_2 =>
      rintro _ rfl _
      exact hc rfl

theorem stripPrefix_append {pre : List Char} : stripPrefix pre (pre ++ s) = some s := by
  induction pre
  case nil        => cases s <;> rfl
  case cons c _ hi => rw [List.cons_append, stripPrefix, if_pos rfl, hi]

theorem trim_indent {n : Nat} : trim (List.replicate n ' ' ++ l) = trim l := by
  induction n
  case zero => rfl
  case succ n hi => exact hi

-- The first character stays where it is when it is no white space, and so does the last one.
theorem trim_cons (h : ¬isWhitespace c) : ∃ s, trim (c :: l) = c :: s := by
  rw [trim, List.dropWhile_cons_of_neg h]
  obtain hn | ⟨s, hs, _⟩ := List.prefix_cons_iff.mp <| List.rdropWhile_prefix isWhitespace (c :: l)
  case inl => exact absurd (List.rdropWhile_eq_nil_iff.mp hn c <| List.mem_cons_self ..) h
  case inr => exact ⟨s, hs⟩

theorem trim_concat (h : ¬isWhitespace c) : ∃ s, trim (l ++ [c]) = s ++ [c] := by
  obtain ⟨s, hs⟩ : ∃ s, (l ++ [c]).dropWhile isWhitespace = s ++ [c] := by
    rw [List.dropWhile_append]
    split
    case isTrue  => exact ⟨[], List.dropWhile_cons_of_neg h⟩
    case isFalse => exact ⟨_, rfl⟩
  exact ⟨s, by rw [trim, hs, List.rdropWhile_concat_neg _ _ _ h]⟩

-- Among pieces that are each followed by `z`, a word with `z` behind it is found just where a piece ends with the word.
theorem terminated_infix_iff {α : Type*} {z : α} {w piece rest : List α} (hw : z ∉ w) (hp : z ∉ piece) :
    w ++ [z] <:+: piece ++ z :: rest ↔ w <:+ piece ∨ w ++ [z] <:+: rest := by
  constructor
  case mpr =>
    rintro (⟨before, rfl⟩ | ⟨before, after, rfl⟩)
    case inl => exact ⟨before, rest, by simp⟩
    case inr => exact ⟨piece ++ z :: before, after, by simp⟩
  case mp =>
    intro ⟨before, after, h⟩
    have h : before ++ (w ++ z :: after) = piece ++ z :: rest := by simpa using h
    obtain ⟨mid, hb, hm⟩ | ⟨mid, hb, hm⟩ := List.append_eq_append_iff.mp h
    case inl =>
      -- `w` begins within the piece and has no `z`, so that it ends where the piece does.
      obtain ⟨tail, ht, hz⟩ | ⟨tail, ht, hz⟩ := List.append_eq_append_iff.mp hm
      all_goals
        cases tail
        case nil => exact .inl ⟨before, by simp_all⟩
        case cons => simp_all
    case inr =>
      cases mid
      case nil        => exact .inl ⟨before, by cases w <;> simp_all⟩
      case cons y mid => exact .inr ⟨mid, after, by simp [(List.cons.inj hm).right]⟩

end Text
