import Parsip.Library.Simulation
import Parsip.Network.Theorems.Exactness

-- What a daemon learns of the files of a peer is what the peer has had at the time.

namespace Parsip

open Transition

namespace Message

def request : Message → Option UInt32
  | .listResources r => some r
  | _                => none

def list : Message → Option (UInt32 × List ResourceInfo)
  | .resourceList r rs => some (r, rs)
  | _                  => none

theorem request_of_moves {m : Message} (h : m.Moves) : m.request = none := by
  cases m <;> first | contradiction | rfl

theorem list_of_moves {m : Message} (h : m.Moves) : m.list = none := by
  cases m <;> first | contradiction | rfl

end Message

-- The peer from which a message has come.
def PeerEvent.source : PeerEvent → Option PeerId
  | .message p _ => some p
  | _            => none

-- The message that is sent to `b`.
def Effect.messageTo (b : PeerId) : Effect → Option Message
  | .send b' m => if b' = b then some m else none
  | _          => none

namespace Network

-- `a` asks `b` for its list, `b` answers with what it has at that moment, and `a` learns of an answer.
inductive Listing
  | asked (a b : PeerId) (r : UInt32)
  | answered (b a : PeerId) (r : UInt32) (rs : List ResourceInfo)
  | learned (a b : PeerId) (r : UInt32) (rs : List ResourceInfo)
deriving DecidableEq

namespace Listing

def asks (a b : PeerId) : Listing → List UInt32
  | asked a' b' r => if a = a' ∧ b' = b then [r] else []
  | _             => []

def answers (b a : PeerId) : Listing → List (UInt32 × List ResourceInfo)
  | answered b' a' r rs => if b = b' ∧ a' = a then [(r, rs)] else []
  | _                   => []

def learns (a b : PeerId) : Listing → List (UInt32 × List ResourceInfo)
  | learned a' b' r rs => if a = a' ∧ b' = b then [(r, rs)] else []
  | _                  => []

end Listing

variable {κ : Type} {channel : Channel Message κ}

-- What becomes of listings when `x` handles an event. A request goes out if `x` is connected to the peer.
def listingOf (s : Network channel) (x : PeerId) : PeerEvent → Option Listing
  | .controlRequest (.listResources name) _ =>
    let d := (s.host x).monitor.daemon
    d.aliases.getPeer name |>.bind fun b =>
      if s.connected x b then some <| .asked x b d.reqTracker.advance.fst else none
  | .message a (.listResources r)   => some <| .answered x a r (s.host x).monitor.daemon.store.listResources
  | .message b (.resourceList r rs) => some <| .learned x b r rs
  | _                               => none

def listing (s : Network channel) : Label κ → Option Listing
  | .loop x _ => (s.host x).events.head?.bind (s.listingOf x)
  | _         => none

-- The read loop of a connection starts when the connection has been registered.
def Registered (s : Network channel) : Label κ → Prop
  | .loop x _ => ∀ p ∈ (s.host x).events.head?.bind (·.source), s.connected x p
  | _         => True

instance {s : Network channel} : (l : Label κ) → Decidable (Registered s l)
  | .loop x _ => inferInstanceAs (Decidable (∀ p ∈ (s.host x).events.head?.bind (·.source), s.connected x p))
  | .connect .. | .post .. | .writer .. | .read .. | .link .. => .isTrue trivial

variable {n : Network channel} {s s' : Queued} {a b x p : PeerId} {e : PeerEvent} {events : List PeerEvent} {env : Env}
variable {d d' : Daemon} {f : Effect} {fx : List Effect} {l : Label Unit} {α : Type} {k : Message → Option α}

-- There is nothing between the event loop of `a` and that of `b`.
def Silent (s : Network channel) (a b : PeerId) : Prop :=
  (s.host b).events = [] ∧ s.link a b = channel.empty

instance [DecidableEq channel.State] : Decidable (n.Silent a b) :=
  inferInstanceAs (Decidable ((n.host b).events = [] ∧ n.link a b = channel.empty))

@[simp]
theorem perform_connected : (n.perform a f).connected = n.connected := by
  cases f
  case send =>
    simp only [perform, send]
    split <;> rfl
  case respond | connect | scanTimer | upload => rfl

theorem underway_perform : (s.perform x f).underway a b = s.underway a b ++
    if a = x ∧ s.connected x b then (f.messageTo b).toList else [] := by
  cases f
  case send p m =>
    rw [perform, underway_send]
    by_cases hp : p = b
    case pos => subst hp; simp [Effect.messageTo]
    case neg => simp [Effect.messageTo, hp, Ne.symm hp]
  case respond | connect | scanTimer => simp [perform, Effect.messageTo]
  case upload target r id path =>
    have hu : (s.perform x (.upload target r id path)).underway a b = s.underway a b := underway_setHost rfl
    simp [hu, Effect.messageTo]

theorem underway_performAll : (s.performAll x fx).underway a b = s.underway a b ++
    if a = x ∧ s.connected x b then fx.filterMap (·.messageTo b) else [] := by
  induction fx generalizing s
  case nil => simp [performAll]
  case cons f fx hi =>
    refine hi.trans ?_
    rw [underway_perform, perform_connected, List.append_assoc]
    split
    case isFalse => simp
    case isTrue => cases hf : f.messageTo b <;> simp [hf]

variable [Crypto]

theorem loop_underway (h : s.step (.loop x env) = some s') : ∃ e events d fx, (s.host x).events = e :: events ∧
    (s.host x).monitor.daemon.handleEvent (s.env x env) e = .ok (d, fx) ∧ ∀ a b,
      s.underway a b ++ (if a = x ∧ s.connected x b then fx.filterMap (·.messageTo b) else []) =
        (if b = x then (e.messageFrom a).toList else []) ++ s'.underway a b := by
  simp only [step] at h
  split at h
  case h_1 => contradiction
  case h_2 e events he =>
    split at h <;> cases h
    case h_1 d fx hd =>
      refine ⟨e, events, d, fx, he, hd, fun a b => ?_⟩
      rw [underway_performAll, underway_handled he, List.append_assoc]
      rfl

omit [Crypto] in
theorem underway_send_none {m : Message} (hm : k m = none) :
    ((s.send x p m).underway a b).filterMap k = (s.underway a b).filterMap k := by
  rw [underway_send]
  split <;> simp [hm]

omit [Crypto] in
theorem underway_readTurn {i : Nat} {u : Upload} {result : Except Error Bytes} (hk : ∀ {m}, m.Moves → k m = none)
    (h : s.readTurn x i u result = some s') : (s'.underway a b).filterMap k = (s.underway a b).filterMap k := by
  have turned {v : Option Upload} {us : List Upload} :
      ((s.setHost x { (s.host x).setUpload i v with finished := us }).underway a b).filterMap k =
        (s.underway a b).filterMap k := congrArg (List.filterMap k) (underway_setHost rfl)
  simp only [readTurn] at h
  split at h
  case h_1 => cases h; exact turned
  case h_2 data =>
    split at h
    case isTrue =>
      cases h
      refine (underway_send_none ?_).trans turned
      exact hk trivial
    case isFalse =>
      split at h
      case isFalse => contradiction
      case isTrue =>
        split at h <;> cases h
        case isFalse => exact turned
        case isTrue =>
          refine (underway_send_none ?_).trans turned
          exact hk trivial

-- Everything else leaves alone what is neither a part of a file nor a request for one.
theorem underway_other (hk : ∀ {m}, m.Moves → k m = none) (h : s.step l = some s') (hl : ∀ x env, l ≠ .loop x env) :
    (s'.underway a b).filterMap k = (s.underway a b).filterMap k := by
  cases l <;> simp only [step] at h
  case loop x env => exact absurd rfl (hl x env)
  case connect =>
    split at h <;> cases h
    rfl
  case post x e =>
    split at h <;> cases h
    case h_3 hm _ =>
      rw [underway_post]
      cases e <;> first | rfl | exact absurd rfl (hm _ _)
  case writer x id =>
    obtain ⟨d, _, rfl⟩ := Option.map_eq_some_iff.mp h
    exact congrArg (List.filterMap k) (underway_setHost rfl)
  case read x i result =>
    split at h
    case h_2 => contradiction
    case h_1 => exact underway_readTurn hk h
  case link x y _ =>
    cases hl : s.link x y <;> simp only [hl, Option.some.injEq, reduceCtorEq] at h
    case cons => rw [← h, underway_deliver hl]

-- What an event sets off, as far as it is looked at.
theorem effects_none {P : Prop} [Decidable P] (h : d.handleEvent env e = .ok (d', fx))
    (hk : ∀ f, e.Emits f → (f.messageTo b).bind k = none) :
    (if P then fx.filterMap (·.messageTo b) else []).filterMap k = [] := by
  split
  case isFalse => rfl
  case isTrue =>
    rw [List.filterMap_filterMap, List.filterMap_eq_nil_iff]
    exact fun f hf => hk f (Daemon.handleEvent_emits h hf)

theorem requests_none {P : Prop} [Decidable P] (h : d.handleEvent env e = .ok (d', fx))
    (hn : ∀ name c, e ≠ .controlRequest (.listResources name) c) :
    (if P then fx.filterMap (·.messageTo b) else []).filterMap Message.request = [] := by
  refine effects_none h fun f hf => ?_
  cases hf
  case listResources      => exact absurd rfl (hn _ _)
  case list | getResource => simp only [Effect.messageTo]; split <;> rfl
  all_goals rfl

theorem lists_none {P : Prop} [Decidable P] (h : d.handleEvent env e = .ok (d', fx))
    (hn : ∀ p r, e ≠ .message p (.listResources r)) :
    (if P then fx.filterMap (·.messageTo b) else []).filterMap Message.list = [] := by
  refine effects_none h fun f hf => ?_
  cases hf
  case list                        => exact absurd rfl (hn _ _)
  case listResources | getResource => simp only [Effect.messageTo]; split <;> rfl
  all_goals rfl

theorem asks_eq (h : (s.host x).monitor.daemon.handleEvent (s.env x env) e = .ok (d, fx)) :
    (s.listingOf x e).toList.flatMap (Listing.asks a b) =
      (if a = x ∧ s.connected x b then fx.filterMap (·.messageTo b) else []).filterMap Message.request := by
  simp only [listingOf]
  split
  case h_1 name c =>
    simp only [Daemon.handleEvent, Daemon.handleControl] at h
    cases hp : (s.host x).monitor.daemon.aliases.getPeer name <;> rw [hp] at h <;> cases h
    case none   => simp [Effect.messageTo]
    case some p =>
      rw [Option.bind_some]
      by_cases hb : p = b
      case neg => cases s.connected x p <;> simp [Listing.asks, Effect.messageTo, hb]
      case pos =>
        subst hb
        by_cases ha : a = x <;> cases s.connected x p <;> simp [Listing.asks, Effect.messageTo, Message.request, ha]
  case h_2 | h_3 => exact (requests_none h fun _ _ he => by contradiction).symm
  case h_4 hn _ _ => exact (requests_none h hn).symm

omit [Crypto] in
-- What is looked at besides requests that go out.
theorem listingOf_flatMap {β : Type} {g : Listing → List β} (hg : ∀ a b r, g (.asked a b r) = []) :
    (s.listingOf x e).toList.flatMap g = match e with
      | .message a (.listResources r)   => g (.answered x a r (s.host x).monitor.daemon.store.listResources)
      | .message b (.resourceList r rs) => g (.learned x b r rs)
      | _                               => [] := by
  simp only [listingOf]
  split
  case h_1 name c =>
    cases (s.host x).monitor.daemon.aliases.getPeer name
    case none   => rfl
    case some p => cases s.connected x p <;> simp [hg]
  case h_2 | h_3 => simp
  case h_4 h₁ h₂ h₃ =>
    split
    case h_1   => exact absurd rfl (h₂ _ _)
    case h_2   => exact absurd rfl (h₃ _ _ _)
    case h_3   => rfl

omit [Crypto] in
theorem messageFrom_filterMap : (if b = x then (e.messageFrom a).toList else []).filterMap k = match e with
    | .message p m => if b = x ∧ p = a then (k m).toList else []
    | _            => [] := by
  cases e
  case message p m =>
    by_cases hb : b = x <;> by_cases hp : p = a <;> simp [PeerEvent.messageFrom, hb, hp]
    cases hk : k m <;> simp [hk]
  all_goals simp [PeerEvent.messageFrom]

omit [Crypto] in
-- A request that is taken from a peer is answered.
theorem answered_eq : (s.listingOf x e).toList.flatMap (fun o => (o.answers b a).map Prod.fst) =
    (if b = x then (e.messageFrom a).toList else []).filterMap Message.request := by
  rw [listingOf_flatMap fun _ _ _ => rfl, messageFrom_filterMap]
  cases e
  case message p m => cases m <;> simp [Listing.answers, Message.request, apply_ite]
  all_goals rfl

omit [Crypto] in
theorem learns_eq : (s.listingOf x e).toList.flatMap (Listing.learns a b) =
    (if a = x then (e.messageFrom b).toList else []).filterMap Message.list := by
  rw [listingOf_flatMap fun _ _ _ => rfl, messageFrom_filterMap]
  cases e
  case message p m => cases m <;> simp [Listing.learns, Message.list]
  all_goals rfl

theorem answers_eq (h : (s.host x).monitor.daemon.handleEvent (s.env x env) e = .ok (d, fx))
    (hc : ∀ p ∈ e.source, s.connected x p) : (s.listingOf x e).toList.flatMap (Listing.answers b a) =
      (if b = x ∧ s.connected x a then fx.filterMap (·.messageTo a) else []).filterMap Message.list := by
  rw [listingOf_flatMap fun _ _ _ => rfl]
  split
  case h_2 => exact (lists_none h nofun).symm
  case h_3 hn _ => exact (lists_none h hn).symm
  case h_1 p r =>
    have hp : s.connected x p = true := hc p rfl
    cases h
    by_cases ha : p = a
    case neg => simp [Listing.answers, Effect.messageTo, ha]
    case pos =>
      subst ha
      by_cases hb : b = x <;> simp [Listing.answers, Effect.messageTo, Message.list, hp, hb]

-- What is underway between two hosts keeps the balance between what one of them sends and the other one handles.
theorem balance {ins outs : Listing → List α} (hk : ∀ {m}, m.Moves → k m = none)
    (hi : ∀ {x env e d fx}, (s.host x).monitor.daemon.handleEvent (s.env x env) e = .ok (d, fx) →
      (∀ p ∈ e.source, s.connected x p) → (s.listingOf x e).toList.flatMap ins =
        (if a = x ∧ s.connected x b then fx.filterMap (·.messageTo b) else []).filterMap k)
    (ho : ∀ {x e}, (s.listingOf x e).toList.flatMap outs = (if b = x then (e.messageFrom a).toList else []).filterMap k)
    (h : ((system Channel.queue).restrict Registered).step s l s') :
    (s.underway a b).filterMap k ++ (s.listing l).toList.flatMap ins =
      (s.listing l).toList.flatMap outs ++ (s'.underway a b).filterMap k := by
  obtain ⟨h, hc⟩ := h
  cases l
  case loop x env =>
    obtain ⟨e, events, d, fx, he, hd, hu⟩ := loop_underway h
    have he : (s.host x).events.head? = some e := by rw [he, List.head?_cons]
    have hu := congrArg (List.filterMap k) (hu a b)
    rw [List.filterMap_append, List.filterMap_append] at hu
    rw [listing, he, Option.bind_some, hi hd fun p hp => hc p (by rwa [he]), ho, hu]
  all_goals
    rw [underway_other hk h fun _ _ hl => by contradiction]
    exact List.append_nil _

-- What has been asked is answered or underway, and what has been answered is shown or underway, each in its order.
theorem listings_balanced {s₀ : Queued} {os : List Listing} (i : Initial s₀)
    (t : Trace ((system Channel.queue).restrict Registered) listing s₀ os s) :
    os.flatMap (Listing.asks a b) =
        (os.flatMap (Listing.answers b a)).map Prod.fst ++ (s.underway a b).filterMap Message.request ∧
      os.flatMap (Listing.answers b a) = os.flatMap (Listing.learns a b) ++ (s.underway b a).filterMap Message.list := by
  have hu {a b} : s₀.underway a b = [] := by
    obtain ⟨hh, hl, _⟩ := i
    obtain ⟨_, he, _⟩ := hh b
    rw [underway, he, hl]
    rfl
  have requests : (s₀.underway a b).filterMap Message.request ++ os.flatMap (Listing.asks a b) =
      os.flatMap (fun o => (o.answers b a).map Prod.fst) ++ (s.underway a b).filterMap Message.request :=
    @Trace.conserves _ _ _ _ _ _ _ _ _ (fun s => (s.underway a b).filterMap Message.request) _ _
      (balance Message.request_of_moves (fun hd _ => asks_eq hd) answered_eq) t
  have answers : (s₀.underway b a).filterMap Message.list ++ os.flatMap (Listing.answers b a) =
      os.flatMap (Listing.learns a b) ++ (s.underway b a).filterMap Message.list :=
    @Trace.conserves _ _ _ _ _ _ _ _ _ (fun s => (s.underway b a).filterMap Message.list) _ _
      (balance Message.list_of_moves answers_eq learns_eq) t
  rw [hu, List.filterMap_nil, List.nil_append] at requests answers
  exact ⟨by rw [List.map_flatMap, requests], answers⟩

variable {c : Channel Message κ} {Carries : c.State → List Message → Prop} {m m' : Network c} {label : Label κ}
variable {os : List Listing}

omit [Crypto] in
theorem Refines.listing (r : Refines Carries m s) : s.listing (.loop x env) = m.listing (.loop x env) := by
  have ho : s.listingOf x = m.listingOf x := by
    funext e
    simp only [listingOf, r.host, r.connected]
  simp only [Network.listing, ho, r.host]

theorem Refines.listed (f : c.Fifo Carries) (r : Refines Carries m s)
    (h : ((system c).restrict Registered).step m label m') : ∃ s', Refines Carries m' s' ∧
      Trace ((system Channel.queue).restrict Registered) Network.listing s (m.listing label).toList s' := by
  cases label
  case loop x env =>
    have ⟨s', r', hs⟩ := r.loop f h.left
    refine ⟨s', r', .single ⟨hs, ?_⟩ (congrArg Option.toList r.listing)⟩
    simpa only [Registered, r.host, r.connected] using h.right
  all_goals
    obtain ⟨s', r', rfl | hs⟩ := r.step f h.left
    case inl => exact ⟨s', r', .refl⟩
    case inr => exact ⟨s', r', .single ⟨hs, trivial⟩ rfl⟩

-- Whoever asks is answered once, with what the peer has at the time, and this is what it learns.
theorem listings_exact {s₀ s : Network Wire.channel} (i : Initial s₀)
    (t : Trace ((system Wire.channel).restrict Registered) listing s₀ os s) :
    (os.flatMap (Listing.answers b a)).map Prod.fst <+: os.flatMap (Listing.asks a b) ∧
      os.flatMap (Listing.learns a b) <+: os.flatMap (Listing.answers b a) ∧
      (s.Silent a b → (os.flatMap (Listing.answers b a)).map Prod.fst = os.flatMap (Listing.asks a b)) ∧
      (s.Silent b a → os.flatMap (Listing.learns a b) = os.flatMap (Listing.answers b a)) := by
  obtain ⟨hh, hl, hc⟩ := i
  have i : Initial (⟨s₀.host, fun _ _ => [], s₀.connected⟩ : Queued) := ⟨hh, fun _ _ => rfl, hc⟩
  have r : Refines Wire.Carries s₀ (⟨s₀.host, fun _ _ => [], s₀.connected⟩ : Queued) :=
    ⟨rfl, rfl, fun a b => hl a b ▸ .empty⟩
  have ⟨q, r, t⟩ := t.simulate (fun r h => r.listed Wire.fifo h) r
  have ⟨requests, answers⟩ := listings_balanced (a := a) (b := b) i t
  have silent {a b} (h : s.Silent a b) : q.underway a b = [] := by
    have hq : q.link a b = [] := (h.right ▸ r.link a b).eq_nil
    rw [underway, r.host, h.left, hq]
    rfl
  refine ⟨⟨_, requests.symm⟩, ⟨_, answers.symm⟩, fun h => ?_, fun h => ?_⟩
  case refine_1 => rw [requests, silent h, List.filterMap_nil, List.append_nil]
  case refine_2 => rw [answers, silent h, List.filterMap_nil, List.append_nil]

deriving instance DecidableEq for Pipe, Wire

instance : DecidableEq Wire.channel.State :=
  inferInstanceAs (DecidableEq Wire)

-- A step that keeps to registered connections.
def stepRegistered (s : Network Wire.channel) (l : Label Wire.Turn) : Option (Network Wire.channel) :=
  if Registered s l then @step _ _ .transparent s l else none

def listed : Network Wire.channel :=
  (sending.foldlM stepRegistered fresh).getD fresh

omit [Crypto] in
theorem listings_exact_song : ∃ os,
    Trace (@system _ .transparent Wire.channel |>.restrict Registered) listing fresh os listed ∧
      os.flatMap (Listing.learns asker holder) = [(1, [song, poem])] ∧
      os.flatMap (Listing.learns asker holder) = os.flatMap (Listing.answers holder asker) := by
  have hs : (sending.foldlM stepRegistered fresh).isSome := by decide +kernel
  have hl : sending.foldlM stepRegistered fresh = some listed :=
    (Option.getD_of_ne_none (Option.isSome_iff_ne_none.mp hs) fresh).symm
  have t : Trace (@system _ .transparent Wire.channel |>.restrict Registered) listing fresh
      [.asked asker holder 1, .answered holder asker 1 [song, poem], .learned asker holder 1 [song, poem]] listed :=
    .ofFn_restrict hl (by decide +kernel)
  have h := @listings_exact asker holder .transparent _ _ _ fresh_initial t
  exact ⟨_, t, rfl, h.right.right.right (by decide +kernel)⟩

end Network
end Parsip
