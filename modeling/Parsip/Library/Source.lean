import Mathlib.Data.List.Basic

-- A stream as its reads give it: piece by piece, and now and then interrupted.

inductive Source (β : Type*)
  | eof
  | data (b : β) (bs : List β) (rest : Source β)
  | interrupted (rest : Source β)

namespace Source

variable {β : Type*}

def content : Source β → List β
  | eof              => []
  | data b bs rest   => b :: bs ++ rest.content
  | interrupted rest => rest.content

-- A stream that gives everything at once.
def ofList : List β → Source β
  | []      => eof
  | b :: bs => data b bs eof

-- `read_exact`, with `none` at the end of the stream. An interrupted read is tried again.
def readExact : Source β → Nat → Option (List β) × Source β
  | s, 0                    => (some [], s)
  | eof, _ + 1              => (none, eof)
  | interrupted rest, n + 1 => rest.readExact (n + 1)
  | data b bs rest, n + 1   =>
    match bs.drop n with
    | b' :: bs' => (some <| b :: bs.take n, data b' bs' rest)
    | []        =>
      let (read, rest) := rest.readExact (n - bs.length)
      (read.map (b :: bs ++ ·), rest)

variable {s : Source β} {n : Nat}

@[simp]
theorem content_ofList {bs : List β} : (ofList bs).content = bs := by
  cases bs <;> simp [ofList, content]

@[simp]
theorem readExact_zero : s.readExact 0 = (some [], s) := by
  cases s <;> rfl

-- However the stream is cut into pieces, `read_exact` takes what is at its front.
theorem readExact_eq (h : n ≤ s.content.length) :
    (s.readExact n).fst = some (s.content.take n) ∧ (s.readExact n).snd.content = s.content.drop n := by
  induction s generalizing n <;> cases n
  case eof.zero | data.zero | interrupted.zero => simp
  case eof.succ => contradiction
  case interrupted.succ hi n => exact hi h
  case data.succ b bs rest hi n =>
    simp only [content, List.cons_append, List.length_cons, List.length_append] at h
    simp only [content, List.cons_append, List.take_succ_cons, List.drop_succ_cons, readExact]
    split
    case h_1 b' bs' hd =>
      have hl : n ≤ bs.length := by
        by_contra hl
        rw [List.drop_eq_nil_of_le (by omega)] at hd
        contradiction
      rw [List.take_append_of_le_length hl, List.drop_append_of_le_length hl, hd]
      exact ⟨rfl, rfl⟩
    case h_2 hd =>
      have hl := List.drop_eq_nil_iff.mp hd
      have ⟨ht, hr⟩ := @hi (n - bs.length) (by omega)
      rw [ht, hr, List.take_append, List.take_of_length_le hl, List.drop_append, hd]
      exact ⟨rfl, rfl⟩

-- A stream that is too short is used up.
theorem readExact_eof (h : s.content.length < n) : s.readExact n = (none, eof) := by
  induction s generalizing n <;> cases n
  case eof.zero | data.zero | interrupted.zero => contradiction
  case eof.succ => rfl
  case interrupted.succ hi n => exact hi h
  case data.succ b bs rest hi n =>
    simp only [content, List.cons_append, List.length_cons, List.length_append] at h
    have hd : bs.drop n = [] := List.drop_eq_nil_of_le (by omega)
    simp only [readExact, hd, @hi (n - bs.length) (by omega), Option.map_none]

end Source
