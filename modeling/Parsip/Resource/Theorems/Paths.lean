import Parsip.Resource.Download

namespace Parsip

open PosixPath

theorem intercalate_comma {l : List Char} {ls : List (List Char)} :
    [',', ' '].intercalate (l :: ls) = [','].intercalate (l :: ls.map (' ' :: ·)) := by
  induction ls generalizing l
  case nil => simp
  case cons k ks hi =>
    simp [List.intercalate_cons_cons, List.intercalate_cons_cons_left, hi]

theorem splitOn_intercalate_comma {l : List Char} {ls : List (List Char)} (h : ∀ k ∈ l :: ls, ',' ∉ k) :
    ([',', ' '].intercalate (l :: ls)).splitOn ',' = l :: ls.map (' ' :: ·) := by
  rw [intercalate_comma]
  refine List.splitOn_intercalate _ (fun k hk => ?_) nofun
  simp only [List.mem_cons, List.mem_map] at h hk
  obtain rfl | ⟨k, hk, rfl⟩ := hk
  case inl => exact h _ (.inl rfl)
  case inr => simp [h k (.inr hk)]

-- Items without a comma can be told apart in their list.
theorem intercalate_comma_injective {ls ls' : List (List Char)} (h : ∀ l ∈ ls, ',' ∉ l)
    (h' : ∀ l ∈ ls', ',' ∉ l) (hl : ls.length = ls'.length)
    (he : [',', ' '].intercalate ls = [',', ' '].intercalate ls') : ls = ls' := by
  cases ls <;> cases ls' <;> simp only [List.length_nil, List.length_cons, reduceCtorEq] at hl
  case nil.nil   => rfl
  case cons.cons =>
    have hs := congrArg (List.splitOn ',') he
    rw [splitOn_intercalate_comma h, splitOn_intercalate_comma h', List.cons.injEq] at hs
    exact congrArg₂ _ hs.left <| List.map_injective_iff.mpr (fun _ _ h => List.tail_eq_of_cons_eq h) hs.right

namespace ResourceId

def digits (b : UInt8) : List Char :=
  Nat.toDigits 10 b.toNat

theorem digits_injective : Function.Injective digits := fun b b' h => by
  have := congrArg (Nat.ofDigitChars 10 · 0) h
  simp only [digits, Nat.ofDigitChars_ten_toDigits] at this
  exact UInt8.toNat_inj.mp this

theorem isDigit_of_mem_digits {b : UInt8} {c : Char} (h : c ∈ digits b) : c.isDigit = true :=
  Nat.isDigit_of_mem_toDigits (by decide) (by decide) h

theorem debug_toList {id : ResourceId} : id.debug.toList =
    "ResourceId([".toList ++ ([',', ' '].intercalate <| id.bytes.toList.map digits) ++ [']', ')'] := by
  have hd : String.toList ∘ (fun b : UInt8 => toString b.toNat) = digits :=
    funext fun _ => Nat.toList_repr
  simp only [debug, String.toList_append, String.toList_intercalate, List.map_map, hd]
  rfl

theorem debug_injective {id id' : ResourceId} (h : id.debug = id'.debug) : id = id' := by
  have h := congrArg String.toList h
  rw [debug_toList, debug_toList, List.append_cancel_right_eq, List.append_cancel_left_eq] at h
  have hc : ∀ id : ResourceId, ∀ l ∈ id.bytes.toList.map digits, ',' ∉ l := by
    intro id l hl hm
    have ⟨b, _, hb⟩ := List.mem_map.mp hl
    have := isDigit_of_mem_digits (hb ▸ hm)
    contradiction
  have hb := intercalate_comma_injective (hc id) (hc id') (by simp) h
  obtain ⟨bytes⟩ := id
  obtain ⟨bytes'⟩ := id'
  exact congrArg _ <| Subtype.ext <| digits_injective.list_map hb

theorem slash_not_mem_debug {id : ResourceId} : '/' ∉ id.debug.toList := by
  have hc : ∀ ls : List UInt8, '/' ∉ [',', ' '].intercalate (ls.map digits) := by
    intro ls
    induction ls
    case nil => simp
    case cons b bs hi =>
      have hb : '/' ∉ digits b := fun h => by simpa using isDigit_of_mem_digits h
      cases bs
      case nil  => simpa using hb
      case cons =>
        rw [List.map_cons, List.map_cons, List.intercalate_cons_cons]
        simpa [hb] using hi
  rw [debug_toList]
  simp [hc]

end ResourceId

-- The names of temporary files.
def IsTemp (name : List Char) : Prop :=
  ".tmp_".toList <+: name

instance : DecidablePred IsTemp :=
  fun _ => inferInstanceAs (Decidable (_ <+: _))

theorem isTemp_temp {id : ResourceId} : IsTemp (".tmp_" ++ id.debug).toList :=
  ⟨id.debug.toList, String.toList_append.symm⟩

theorem isName_temp {id : ResourceId} : IsName (".tmp_" ++ id.debug).toList := by
  have hd := id.slash_not_mem_debug
  rw [String.toList_append]
  exact ⟨by simp, by simp, by simp, by simp [hd]⟩

namespace DownloadManager

variable {m : DownloadManager} {id id' : ResourceId} {info : ResourceInfo}

theorem resolve_tempPath : resolve (m.tempPath id) =
    (resolve m.downloadsDir).child (".tmp_" ++ id.debug).toList :=
  resolve_join_name isName_temp

theorem resolve_finalPath (h : IsName info.name.toList) :
    resolve (m.finalPath info) = (resolve m.downloadsDir).child info.name.toList :=
  resolve_join_name h

-- Two downloads have two temporary files.
theorem tempPath_injective (h : resolve (m.tempPath id) = resolve (m.tempPath id')) : id = id' := by
  rw [resolve_tempPath, resolve_tempPath] at h
  have := String.toList_injective <| Place.child_injective h
  exact ResourceId.debug_injective <| String.append_right_inj _ |>.mp this

theorem finalPath_ne_tempPath (h : IsName info.name.toList) (ht : ¬IsTemp info.name.toList) :
    resolve (m.finalPath info) ≠ resolve (m.tempPath id) := by
  intro he
  rw [resolve_tempPath, resolve_finalPath h] at he
  exact ht <| Place.child_injective he ▸ isTemp_temp

end DownloadManager
end Parsip
