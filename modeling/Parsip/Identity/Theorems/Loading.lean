import Parsip.Identity.Loading

-- When a daemon is who it has been before.

namespace Parsip

-- The seed in a file that is not malformed.
def recorded (file : Option Bytes) : Option (U8Array 32) :=
  file.bind fun content => if h : content.length = 32 then some ⟨content, h⟩ else none

theorem recorded_toList {seed : U8Array 32} : recorded (some seed.toList) = some seed := by
  have h : seed.toList.length = 32 := seed.toList_length
  rw [recorded, Option.bind_some, dif_pos h]
  rfl

theorem recorded_take {seed : U8Array 32} {n : Fin 32} : recorded (some <| seed.toList.take n) = none := by
  have h : (seed.toList.take n).length ≠ 32 := by
    have := n.isLt
    rw [List.length_take, seed.toList_length]
    omega
  rw [recorded, Option.bind_some, dif_neg h]

namespace Startup

variable [Crypto]

def identity (s : Startup) (file : Option Bytes) : Identity :=
  (Identity.loadOrGenerate s file).fst

def leaves (file : Option Bytes) (s : Startup) : Option Bytes :=
  (Identity.loadOrGenerate s file).snd

-- The identity of the start is in the file afterwards.
def Records (s : Startup) (file : Option Bytes) : Prop :=
  s.unreadable = false ∧ recorded file ≠ none ∨ s.write = none

-- The start does not touch a file with an identity in it.
def Keeps (s : Startup) : Prop :=
  s.unreadable = false ∨ s.write = some .unopened

variable {s a b : Startup} {ss pre mid : List Startup} {file : Option Bytes} {seed : U8Array 32}

theorem loads (hu : s.unreadable = false) (hr : recorded file = some seed) :
    s.identity file = .ofSeed seed ∧ s.leaves file = file := by
  obtain ⟨content, rfl, hc⟩ := Option.bind_eq_some_iff.mp hr
  rw [Option.dite_none_right_eq_some] at hc
  obtain ⟨h, hc⟩ := hc
  cases hc
  simp only [identity, leaves, Identity.loadOrGenerate, hu, dif_pos h, and_self]

theorem generates (h : s.unreadable = true ∨ recorded file = none) :
    Identity.loadOrGenerate s file = Identity.generate s file := by
  simp only [Identity.loadOrGenerate]
  split
  case h_2 => rfl
  case h_1 content hu =>
    refine dif_neg fun hl => ?_
    obtain ht | hr := h
    case inl => rw [hu] at ht; contradiction
    case inr => simp [recorded, hl] at hr

theorem generated (h : s.unreadable = true ∨ recorded file = none) : s.identity file = .ofSeed s.random ∧
    (s.write = none ∧ recorded (s.leaves file) = some s.random ∨ s.write = some .unopened ∧ s.leaves file = file ∨
      recorded (s.leaves file) = none ∧ s.write ≠ none ∧ s.write ≠ some .unopened) := by
  simp only [identity, leaves, generates h, Identity.generate, true_and]
  match hw : s.write with
  | none           => exact .inl ⟨rfl, recorded_toList⟩
  | some .unopened => exact .inr <| .inl ⟨rfl, rfl⟩
  | some (.cut n)  => exact .inr <| .inr ⟨recorded_take, nofun, nofun⟩

theorem starts_cases (s : Startup) (file : Option Bytes) :
    (∃ seed, s.unreadable = false ∧ recorded file = some seed ∧ s.identity file = .ofSeed seed ∧ s.leaves file = file) ∨
    (s.unreadable = true ∨ recorded file = none) ∧ s.identity file = .ofSeed s.random ∧
      (s.write = none ∧ recorded (s.leaves file) = some s.random ∨ s.write = some .unopened ∧ s.leaves file = file ∨
        recorded (s.leaves file) = none ∧ s.write ≠ none ∧ s.write ≠ some .unopened) := by
  cases hu : s.unreadable
  case true =>
    refine .inr ⟨.inl rfl, ?_⟩
    exact generated (.inl hu)
  case false =>
    cases hr : recorded file
    case none      => exact .inr ⟨.inr rfl, generated (.inr hr)⟩
    case some seed => exact .inl ⟨seed, rfl, rfl, loads hu hr⟩

-- Every identity comes from the first file or from the random device, and never from a part of one.
theorem recorded_origin (h : recorded (ss.foldl leaves file) = some seed) :
    recorded file = some seed ∨ seed ∈ ss.map random := by
  induction ss generalizing file
  case nil => exact .inl h
  case cons s ss hi =>
    obtain hr | hm := hi h
    case inr => exact .inr (List.mem_cons_of_mem _ hm)
    case inl =>
      obtain ⟨_, _, _, _, hl⟩ | ⟨_, _, ⟨_, hl⟩ | ⟨_, hl⟩ | ⟨hl, _⟩⟩ := s.starts_cases file <;> rw [hl] at hr
      case inl | inr.inr.inl => exact .inl hr
      case inr.inl           => cases hr; exact .inr (List.mem_cons_self ..)
      case inr.inr.inr       => contradiction

omit [Crypto] in
theorem not_keeps (hn : s.unreadable = true ∨ recorded file = none) (hw : s.write ≠ some .unopened) :
    ¬(recorded file = some seed ∧ s.Keeps) := by
  rintro ⟨hr, hk | hk⟩
  case inr => contradiction
  case inl =>
    obtain hu | hn := hn
    case inl => rw [hk] at hu; contradiction
    case inr => rw [hn] at hr; contradiction

-- A seed that is not their own is in the file after some starts if it was there before and they left it alone.
theorem recorded_foldl (hs : seed ∉ ss.map random) :
    recorded (ss.foldl leaves file) = some seed ↔ recorded file = some seed ∧ ∀ s ∈ ss, s.Keeps := by
  induction ss generalizing file
  case nil => simp
  case cons s ss hi =>
    rw [List.map_cons, List.mem_cons, not_or] at hs
    rw [List.foldl_cons, hi hs.right, List.forall_mem_cons, ← and_assoc]
    refine and_congr_left' ?_
    obtain ⟨_, hu, _, _, hl⟩ | ⟨hn, _, ⟨hw, hl⟩ | ⟨hw, hl⟩ | ⟨hl, _, hw⟩⟩ := s.starts_cases file <;> rw [hl]
    case inl         => exact (and_iff_left <| .inl hu).symm
    case inr.inr.inl => exact (and_iff_left <| .inr hw).symm
    case inr.inl     => exact iff_of_false (fun he => hs.left (Option.some.inj he).symm) (not_keeps hn (by simp [hw]))
    case inr.inr.inr => exact iff_of_false nofun (not_keeps hn hw)

theorem ofSeed_injective {seed seed' : U8Array 32} (h : Identity.ofSeed seed = .ofSeed seed') : seed = seed' :=
  congrArg Identity.signingKey h

theorem identity_eq_iff (hs : seed ≠ s.random) :
    s.identity file = .ofSeed seed ↔ recorded file = some seed ∧ s.unreadable = false := by
  obtain ⟨seed', hu, hr, hi, _⟩ | ⟨hn, hi, _⟩ := s.starts_cases file <;> rw [hi]
  case inl =>
    rw [hr, Option.some.injEq, and_iff_left hu]
    exact ⟨ofSeed_injective, congrArg _⟩
  case inr =>
    refine iff_of_false (fun he => hs (ofSeed_injective he).symm) ?_
    rintro ⟨hr, hu⟩
    exact hn.elim (by simp [hu]) (by simp [hr])

-- A start whose bytes are not in the file already.
theorem records_iff (ha : recorded file ≠ some s.random) (hi : s.identity file = .ofSeed seed) :
    recorded (s.leaves file) = some seed ↔ s.Records file := by
  obtain ⟨seed', hu, hr, hi', hl⟩ | ⟨hn, hi', hw⟩ := s.starts_cases file
  case inl =>
    cases ofSeed_injective (hi'.symm.trans hi)
    rw [hl]
    exact iff_of_true hr <| .inl ⟨hu, by simp [hr]⟩
  case inr =>
    cases ofSeed_injective (hi'.symm.trans hi)
    have hn : s.Records file ↔ s.write = none := or_iff_right fun ⟨hu, hr⟩ => hn.elim (by simp [hu]) hr
    rw [hn]
    obtain ⟨hw, hl⟩ | ⟨hw, hl⟩ | ⟨hl, hw, _⟩ := hw <;> rw [hl]
    case inl     => exact iff_of_true rfl hw
    case inr.inl => exact iff_of_false ha (by simp [hw])
    case inr.inr => exact iff_of_false nofun hw

-- Of a start `a` and a later one `b`, with random bytes that never come twice.
theorem same_identity_iff (h : ((recorded file).toList ++ (pre ++ a :: (mid ++ [b])).map random).Nodup) :
    b.identity ((pre ++ a :: mid).foldl leaves file) = a.identity (pre.foldl leaves file) ↔
      a.Records (pre.foldl leaves file) ∧ (∀ s ∈ mid, s.Keeps) ∧ b.unreadable = false := by
  rw [List.map_append, ← List.append_assoc, List.nodup_append', List.disjoint_left] at h
  obtain ⟨_, hd, hf⟩ := h
  rw [List.foldl_append, List.foldl_cons]
  -- What `a` may find in the file is nobody's from then on.
  have hr {seed} (hr : recorded (pre.foldl leaves file) = some seed) : seed ∉ (a :: (mid ++ [b])).map random := by
    refine hf (List.mem_append.mpr ?_)
    exact (recorded_origin hr).imp_left fun hr => by simp [hr]
  generalize pre.foldl leaves file = file at hr
  simp only [List.map_cons, List.map_append, List.map_nil, List.mem_cons, List.mem_append, List.not_mem_nil, or_false,
    not_or, List.nodup_cons] at hr hd
  obtain ⟨seed, hi, hm, hb⟩ : ∃ seed, a.identity file = .ofSeed seed ∧ seed ∉ mid.map random ∧ seed ≠ b.random := by
    obtain ⟨seed, _, hs, hi, _⟩ | ⟨_, hi, _⟩ := a.starts_cases file
    case inl => exact ⟨seed, hi, (hr hs).right⟩
    case inr => exact ⟨_, hi, hd.left⟩
  rw [hi, identity_eq_iff hb, recorded_foldl hm, records_iff (fun he => (hr he).left rfl) hi, and_assoc]

-- The first start writes a new identity, the second one can neither read nor open the file, and the third one is
-- the first one again.
def first : Startup :=
  ⟨false, .replicate 32 1, none⟩

def second : Startup :=
  ⟨true, .replicate 32 2, some .unopened⟩

def third : Startup :=
  ⟨false, .replicate 32 3, some (.cut 5)⟩

omit [Crypto] in
theorem same_identity_third : @identity .transparent third ([first, second].foldl (@leaves .transparent) none) =
    @identity .transparent first none :=
  (@same_identity_iff .transparent first third [] [second] none (by decide +kernel)).mpr
    ⟨.inr rfl, List.forall_mem_singleton.mpr <| .inr rfl, rfl⟩

end Startup
end Parsip
