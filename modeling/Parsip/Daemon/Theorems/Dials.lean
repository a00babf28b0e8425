import Parsip.Daemon.Theorems.Dialling
import Parsip.Daemon.Theorems.Endings

-- That dials are not mistaken for each other, and what a client that dials is told of before the result.

namespace Parsip

open Transition

-- An entry of a list is replaced by one that looks the same.
theorem map_set_of_eq {α β : Type*} {f : α → β} {as : List α} {i : Nat} {a b : α} (h : as[i]? = some a) (hf : f b = f a) :
    (as.set i b).map f = as.map f := by
  refine List.ext_getElem? fun j => ?_
  rw [List.getElem?_map, List.getElem?_map, List.getElem?_set]
  split
  case isFalse => rfl
  case isTrue hj =>
    subst hj
    rw [if_pos (List.getElem?_eq_some_iff.mp h).fst, h, Option.map_some, Option.map_some, hf]

namespace Service

variable {s : Service} {env : Env} {e : PeerEvent} {d : Daemon} {fx : List Effect}

-- Only a `Connect` request that gets an id is dialled for.
theorem dialled_cases [Crypto] (h : s.daemon.handleEvent env e = .ok (d, fx)) : s.dialled env e = [] ∨
    ∃ dial, s.dialled env e = [dial] ∧ dial.sender ∈ e.channel ∧ dial.reqId = s.daemon.reqTracker.nextId ∧
      s.daemon.Reuses env dial.reqId e ∧ ∀ pa ra c, e ≠ .controlRequest (.getResource pa ra) c := by
  cases hl : s.dialled env e
  case nil => exact .inl rfl
  case cons dial dials =>
    have ⟨name, he, hf⟩ := mem_dialled h (hl ▸ List.mem_cons_self ..)
    subst he
    have hc : s.daemon.handleControl env dial.sender (.connect name) = .ok (d, fx) := h
    obtain ⟨p, info, hq, _, _, _, rfl⟩ | ⟨_, m, rfl⟩ := Daemon.connect_spec hc
    case inr => cases List.mem_singleton.mp hf
    case inl =>
      have hr := (Effect.connect.inj <| List.mem_singleton.mp hf).right
      refine .inr ⟨dial, ?_, rfl, hr, ⟨_, _, rfl, ⟨_, hq⟩, hr⟩, fun _ _ _ => by simp⟩
      simp only [dialled, h, PeerEvent.channel] at hl
      have hn : [] = dials := (List.cons.inj hl).right
      rw [← hn]

theorem dialled_result [Crypto] {dial : Dial} (h : dial ∈ s.dialled env e) : dial.result = none := by
  simp only [dialled] at h
  split at h
  case h_2 => contradiction
  case h_1 =>
    obtain ⟨f, _, hd⟩ := List.mem_filterMap.mp h
    cases f <;> cases hd
    rfl

-- The result of a dial is always handled.
theorem step_notConnected [Crypto] {r : UInt32} {m : String} : s.step (.handle env (.connectResult r (.error m))) =
    some (s.handled (.connectResult r (.error m)) (s.daemon.finish r (.error m)).fst (s.daemon.finish r (.error m)).snd) := by
  simp only [step, Daemon.handleEvent]
  rw [if_neg]
  rintro ⟨_, hc, _⟩
  contradiction

end Service

namespace Dialling

variable {s s' : Dialling} {l : Label} {env : Env} {e : PeerEvent} {d : Daemon} {fx : List Effect} {dial : Dial}
variable {i : Nat} {result : Except String PeerId}

theorem step_act [Crypto] (h : ∀ r result, e ≠ .connectResult r result) : s.step (.act (.handle env e)) =
    (s.service.step (.handle env e)).map fun service => ⟨service, s.dials ++ s.service.dialled env e⟩ := by
  cases e <;> first | rfl | exact absurd rfl (h _ _)

theorem step_settle [Crypto] (h : s.dials[i]? = some dial) (hr : dial.result = none) :
    s.step (.settle i result) = some { s with dials := s.dials.set i { dial with result := some result } } := by
  simp only [step, h, hr]
  rfl

theorem step_report [Crypto] (h : s.dials[i]? = some dial) (hr : dial.result = some result) : s.step (.report env i) =
    (s.service.step (.handle env (.connectResult dial.reqId result))).map fun service => ⟨service, s.dials.eraseIdx i⟩ := by
  cases dial
  subst hr
  simp only [step, h]

-- The id of a new request is not that of a dial or a transfer that is under way.
def Fresh (s : Dialling) : Label → Prop
  | .act (.handle env e) => ∀ r, s.daemon.Reuses env r e →
    (∀ dial ∈ s.dials, dial.reqId ≠ r) ∧ s.daemon.transferMgr.transfers.lookup r = none
  | _ => True

-- Dials have ids and clients of their own.
structure Distinct (s : Dialling) : Prop where
  ids       : (s.dials.map (·.reqId)).Nodup
  clients   : ∀ {dial}, dial ∈ s.dials → dial.sender ∈ s.service.channels
  own       : ∀ {dial r}, dial ∈ s.dials → s.daemon.reqTracker.get r = some dial.sender → r = dial.reqId
  transfers : ∀ {dial}, dial ∈ s.dials → s.daemon.transferMgr.transfers.lookup dial.reqId = none

namespace Distinct

theorem init (h : Initial s) : Distinct s := by
  have hd := h.right
  constructor <;> simp [hd]

variable [Crypto]

theorem handled (k : Distinct s) (li : s.service.Linear) (h : s.daemon.handleEvent env e = .ok (d, fx))
    (hc : ∀ c ∈ e.channel, c ∉ s.service.channels) (hf : s.Fresh (.act (.handle env e)))
    {dials : List Dial} (hd : ∀ dial ∈ dials, dial ∈ s.dials ∨ s.service.dialled env e = [dial])
    (hi : (dials.map (·.reqId)).Nodup) : Distinct ⟨s.service.handled e d fx, dials⟩ := by
  have new {dial : Dial} (hl : s.service.dialled env e = [dial]) : dial.sender ∈ e.channel ∧
      dial.reqId = s.daemon.reqTracker.nextId ∧ s.daemon.Reuses env dial.reqId e ∧
        ∀ pa ra c, e ≠ .controlRequest (.getResource pa ra) c := by
    obtain hn | ⟨dial', he, hx⟩ := Service.dialled_cases h
    case inl => cases hl.symm.trans hn
    case inr => cases hl.symm.trans he; exact hx
  constructor
  case ids => exact hi
  case clients =>
    intro dial hm
    refine List.mem_append.mpr <| (hd dial hm).imp k.clients fun hl => ?_
    exact Option.mem_toList.mpr (new hl).left
  case own =>
    intro dial r hm hp
    obtain hm | hl := hd dial hm <;> obtain hp | ⟨he, hr⟩ := (Daemon.handleEvent_tracks h).pending hp
    case inl.inl => exact k.own hm hp
    case inl.inr => exact absurd (k.clients hm) (hc _ he)
    case inr.inl => exact absurd hp <| li.not_waiting hc (new hl).left _
    case inr.inr => exact hr.trans (new hl).right.left.symm
  case transfers =>
    intro dial hm
    refine Option.eq_none_iff_forall_ne_some.mpr fun t ht => ?_
    obtain ⟨t₀, ht₀, _⟩ | ⟨pa, ra, c, he, hs, _, hr⟩ := Daemon.handleEvent_peer h ht <;> obtain hm | hl := hd dial hm
    case inl.inl => cases (k.transfers hm).symm.trans ht₀
    case inl.inr => cases (hf _ (new hl).right.right.left).right.symm.trans ht₀
    case inr.inl => exact absurd rfl <| (hf _ ⟨_, _, he, hs, hr⟩).left dial hm
    case inr.inr => exact absurd he <| (new hl).right.right.right _ _ _

theorem step (k : Distinct s) (li : s.service.Linear) (h : s.step l = some s') (hf : s.Fresh l) : Distinct s' := by
  cases takes h
  case turn m _ hq ht _ =>
    constructor
    case ids       => exact k.ids
    case clients   => exact k.clients
    case own       => exact fun hm hp => k.own hm (hq ▸ hp)
    case transfers => exact fun hm => ht ▸ k.transfers hm
  case settle i result dial hd =>
    have hi : (s.dials.set i { dial with result := some result }).map (·.reqId) = s.dials.map (·.reqId) :=
      map_set_of_eq hd rfl
    have ho {dial'} (hm : dial' ∈ s.dials.set i { dial with result := some result }) :
        ∃ dial ∈ s.dials, dial.reqId = dial'.reqId ∧ dial.sender = dial'.sender := by
      obtain hm | rfl := List.mem_or_eq_of_mem_set hm
      case inl => exact ⟨dial', hm, rfl, rfl⟩
      case inr => exact ⟨dial, List.mem_of_getElem? hd, rfl, rfl⟩
    constructor
    case ids => exact hi ▸ k.ids
    case clients =>
      intro dial' hm
      obtain ⟨dial, hm, _, hs⟩ := ho hm
      exact hs ▸ k.clients hm
    case own =>
      intro dial' r hm hp
      obtain ⟨dial, hm, hr, hs⟩ := ho hm
      exact hr ▸ k.own hm (hs ▸ hp)
    case transfers =>
      intro dial' hm
      obtain ⟨dial, hm, hr, _⟩ := ho hm
      exact hr ▸ k.transfers hm
  case handle env e service ho hs =>
    obtain ⟨d, fx, hd, hc, rfl⟩ := Service.step_handle hs
    obtain hn | ⟨dial, hl, hx⟩ := Service.dialled_cases hd
    case inl =>
      rw [hn, List.append_nil]
      exact k.handled li hd hc hf (fun _ => .inl) k.ids
    case inr =>
      refine k.handled li hd hc hf (fun dial' hm => ?_) ?_
      case refine_1 =>
        refine (List.mem_append.mp hm).imp_right fun hm => ?_
        rw [hl] at hm ⊢
        rw [List.mem_singleton.mp hm]
      case refine_2 =>
        rw [hl, List.map_append]
        refine k.ids.append (List.nodup_singleton _) <| List.disjoint_singleton.mpr fun hr => ?_
        obtain ⟨dial', hm, hr⟩ := List.mem_map.mp hr
        exact (hf _ hx.right.right.left).left dial' hm hr
  case report env i dial result service hd hr hs =>
    obtain ⟨d, fx, hd, hc, rfl⟩ := Service.step_handle hs
    refine k.handled li hd hc ?_ (fun _ hm => .inl <| List.mem_of_mem_eraseIdx hm) ?_
    case refine_1 =>
      rintro r ⟨_, _, he, _⟩
      contradiction
    case refine_2 => exact ((List.eraseIdx_sublist ..).map _).nodup k.ids

-- Who dials is told of an error by nothing but the result.
theorem unanswered {m : String} (k : Distinct s) (li : s.service.Linear) (h : s.daemon.handleEvent env e = .ok (d, fx))
    (hc : ∀ c ∈ e.channel, c ∉ s.service.channels) (hf : s.Fresh (.act (.handle env e)))
    (ho : ∀ r result, e ≠ .connectResult r result) (hm : dial ∈ s.dials) : .respond dial.sender (.error m) ∉ fx := by
  intro hr
  have t := Daemon.handleEvent_tracks h
  have hc : dial.sender ∉ e.channel := fun he => hc _ he (k.clients hm)
  have answered : fx.filterMap (·.responseTo dial.sender) ≠ [] := fun hn => by
    have := List.filterMap_eq_nil_iff.mp hn _ hr
    simp [Effect.responseTo] at this
  obtain ⟨r, hp⟩ : ∃ r, s.daemon.reqTracker.get r = some dial.sender := by
    obtain hn | ⟨_, _, ⟨_, hp | he, _⟩ | ⟨_, hp⟩⟩ := t.responses (c := dial.sender) li.single fun he => absurd he hc
    case inl            => exact absurd hn answered
    case inr.inl.inr    => exact absurd he hc
    case inr.inl.inl | inr.inr => exact hp
  obtain rfl := k.own hm hp
  by_cases ht : s.daemon.Touches env dial.reqId e
  case neg => exact answered (t.untouched h (li.single hp) hp hc ht).left
  case pos =>
    cases Daemon.handleEvent_emits h hr
    case cancelled =>
      obtain ⟨t, ht, _⟩ := ht
      cases (k.transfers hm).symm.trans ht
    case notConnected => exact ho _ _ rfl
    case refused      => exact (hf _ ⟨_, _, rfl, ht.right, ht.left.symm⟩).left dial hm rfl

end Distinct
end Dialling
end Parsip
