import Mathlib.Data.Fintype.Card
import Mathlib.Logic.Function.Basic
import TcpAndParallel.Headcount
import TcpAndParallel.Runs

namespace TcpAndParallel

/-- The calls that pass messages to and from `n` tasks, and what is on its way. -/
structure Mailboxes (n : Nat) (μ : Type*) where
  Boxes : Type*
  empty : Boxes
  post : Fin n → μ → Boxes → Boxes
  take : Fin n → Boxes → Option (μ × Boxes)
  queue : Boxes → Fin n → List μ

/-- Every message arrives once, and those of one task keep their order. -/
structure Mailboxes.Reliable {n : Nat} {μ : Type*} (m : Mailboxes n μ) : Prop where
  empty : m.queue m.empty = fun _ => []
  post : ∀ w message boxes, m.queue (m.post w message boxes) =
    Function.update (m.queue boxes) w (m.queue boxes w ++ [message])
  take_nil : ∀ w boxes, m.queue boxes w = [] → m.take w boxes = none
  take_cons : ∀ w boxes message rest, m.queue boxes w = message :: rest →
    ∃ boxes', m.take w boxes = some (message, boxes') ∧
      m.queue boxes' = Function.update (m.queue boxes) w rest

def Mailboxes.lists (n : Nat) (μ : Type*) : Mailboxes n μ where
  Boxes := Fin n → List μ
  empty _ := []
  post w message boxes := Function.update boxes w (boxes w ++ [message])
  take w boxes :=
    match boxes w with
    | [] => none
    | message :: rest => some (message, Function.update boxes w rest)
  queue boxes := boxes

theorem Mailboxes.lists_reliable (n : Nat) (μ : Type*) : (Mailboxes.lists n μ).Reliable where
  empty := rfl
  post _ _ _ := rfl
  take_nil w boxes h := by
    simp only [lists] at h ⊢
    rw [h]
  take_cons w boxes message rest h := by
    simp only [lists] at h ⊢
    rw [h]
    exact ⟨_, rfl, rfl⟩

namespace Farm

/-- A pass of the loop that sends, and one of the loop that receives. -/
structure Master (ρ κ δ : Type*) where
  send : Nat → δ → Option (ρ × δ)
  receive : κ → δ → Option δ

/-- The messages of different workers arrive in any order. -/
structure State {n : Nat} {ρ κ : Type*} (out : Mailboxes n ρ) (back : Mailboxes n κ) (δ : Type*) where
  sent : Nat
  received : Nat
  toWorker : out.Boxes
  toMaster : back.Boxes
  data : δ

inductive Event (n : Nat)
  | send
  | work (w : Fin n)
  | receive (w : Fin n)

variable {n : Nat} {ρ κ δ : Type*} {out : Mailboxes n ρ} {back : Mailboxes n κ}

def start (out : Mailboxes n ρ) (back : Mailboxes n κ) (data : δ) : State out back δ :=
  ⟨0, 0, out.empty, back.empty, data⟩

def State.asked (s : State out back δ) : Fin n → List ρ := out.queue s.toWorker

def State.answered (s : State out back δ) : Fin n → List κ := back.queue s.toMaster

/-- A request for a worker that was not spawned goes nowhere. -/
def post (out : Mailboxes n ρ) (spawned : Fin n → Bool) (w : Fin n) (request : ρ) (boxes : out.Boxes) :
    out.Boxes :=
  if spawned w then out.post w request boxes else boxes

def step (m : Master ρ κ δ) (work : ρ → κ) (spawned : Fin n → Bool) (s : State out back δ) :
    Event n → Option (State out back δ)
  | .send =>
    if h : s.sent < n then
      (m.send s.sent s.data).map fun (request, data) => { s with
        sent := s.sent + 1
        toWorker := post out spawned ⟨s.sent, h⟩ request s.toWorker
        data }
    else none
  | .work w => (out.take w s.toWorker).map fun (request, toWorker) => { s with
      toWorker
      toMaster := back.post w (work request) s.toMaster }
  | .receive w =>
    -- the second loop begins when the first has ended
    if s.sent = n ∧ s.received < n then
      (back.take w s.toMaster).bind fun (reply, toMaster) =>
        (m.receive reply s.data).map fun data => { s with
          received := s.received + 1
          toMaster
          data }
    else none

/-- The requests that the first loop sends, and the data before each pass of it. -/
def Sends (m : Master ρ κ δ) (request : Fin n → ρ) (before : Nat → δ) : Prop :=
  ∀ i : Fin n, m.send i (before i) = some (request i, before (i + 1))

/-- The replies of some workers are taken, in this order. -/
def collect (m : Master ρ κ δ) (work : ρ → κ) (request : Fin n → ρ) (ws : List (Fin n)) (d : δ) : Option δ :=
  ws.foldlM (fun d w => m.receive (work (request w)) d) d

/-- The worker has not answered, or its answer has not been taken. -/
def Busy (work : ρ → κ) (request : Fin n → ρ) (s : State out back δ) (w : Fin n) : Prop :=
  s.asked w = [request w] ∧ s.answered w = [] ∨ s.asked w = [] ∧ s.answered w = [work (request w)]

/-- The master waits for a reply, and none is there or will be. -/
def Stuck (s : State out back δ) : Prop :=
  s.sent = n ∧ s.received < n ∧ ∀ w, s.asked w = [] ∧ s.answered w = []

/-- The replies of the workers `ws` have been taken, those of the others are still to come. -/
structure Inv (m : Master ρ κ δ) (work : ρ → κ) (spawned : Fin n → Bool) (request : Fin n → ρ)
    (before : Nat → δ) (s : State out back δ) (ws : List (Fin n)) : Prop where
  nodup : ws.Nodup
  count : ws.length = s.received
  alive : ∀ w ∈ ws, spawned w = true
  sent_le : s.sent ≤ n
  all_sent : ws ≠ [] → s.sent = n
  busy : ∀ w : Fin n, w < s.sent → spawned w = true → w ∉ ws → Busy work request s w
  idle : ∀ w : Fin n, ¬((w : Nat) < s.sent ∧ spawned w = true ∧ w ∉ ws) → s.asked w = [] ∧ s.answered w = []
  data : collect m work request ws (before s.sent) = some s.data

section Steps

variable {m : Master ρ κ δ} {work : ρ → κ} {spawned : Fin n → Bool} {request : Fin n → ρ} {before : Nat → δ}
  {s t : State out back δ} {ws : List (Fin n)} {w : Fin n}

theorem step_send (ho : out.Reliable) (ht : step m work spawned s .send = some t) :
    ∃ (hn : s.sent < n) (q : ρ), m.send s.sent s.data = some (q, t.data) ∧ t.sent = s.sent + 1 ∧
      t.received = s.received ∧ t.answered = s.answered ∧
      t.asked = if spawned ⟨s.sent, hn⟩ then
        Function.update s.asked ⟨s.sent, hn⟩ (s.asked ⟨s.sent, hn⟩ ++ [q]) else s.asked := by
  simp only [step] at ht
  split at ht
  next hn =>
    obtain ⟨⟨q, d⟩, hq, rfl⟩ := Option.map_eq_some_iff.mp ht
    refine ⟨hn, q, hq, rfl, rfl, rfl, ?_⟩
    simp only [State.asked, post]
    split
    next => exact ho.post _ _ _
    next => rfl
  next => cases ht

theorem take_some {μ : Type*} {m : Mailboxes n μ} (h : m.Reliable) {boxes boxes' : m.Boxes} {message : μ}
    (ht : m.take w boxes = some (message, boxes')) :
    ∃ rest, m.queue boxes w = message :: rest ∧ m.queue boxes' = Function.update (m.queue boxes) w rest := by
  cases hq : m.queue boxes w with
  | nil => rw [h.take_nil w boxes hq] at ht; cases ht
  | cons first rest =>
    obtain ⟨after, hafter, hqueue⟩ := h.take_cons w boxes first rest hq
    obtain ⟨rfl, rfl⟩ := Prod.mk.inj (Option.some.inj (hafter.symm.trans ht))
    exact ⟨rest, rfl, hqueue⟩

theorem step_work (ho : out.Reliable) (hb : back.Reliable)
    (ht : step m work spawned s (.work w) = some t) :
    ∃ q rest, s.asked w = q :: rest ∧ t.asked = Function.update s.asked w rest ∧
      t.answered = Function.update s.answered w (s.answered w ++ [work q]) ∧
      t.sent = s.sent ∧ t.received = s.received ∧ t.data = s.data := by
  obtain ⟨⟨q, boxes⟩, hq, rfl⟩ := Option.map_eq_some_iff.mp ht
  obtain ⟨rest, hcons, hrest⟩ := take_some ho hq
  exact ⟨q, rest, hcons, hrest, hb.post _ _ _, rfl, rfl, rfl⟩

theorem step_receive (hb : back.Reliable) (ht : step m work spawned s (.receive w) = some t) :
    (s.sent = n ∧ s.received < n) ∧ ∃ r rest, s.answered w = r :: rest ∧
      m.receive r s.data = some t.data ∧ t.answered = Function.update s.answered w rest ∧
      t.asked = s.asked ∧ t.sent = s.sent ∧ t.received = s.received + 1 := by
  simp only [step] at ht
  split at ht
  next hall =>
    obtain ⟨⟨r, boxes⟩, hr, ht⟩ := Option.bind_eq_some_iff.mp ht
    obtain ⟨d, hd, rfl⟩ := Option.map_eq_some_iff.mp ht
    obtain ⟨rest, hcons, hrest⟩ := take_some hb hr
    exact ⟨hall, r, rest, hcons, hd, hrest, rfl, rfl, rfl⟩
  next => cases ht

theorem exists_work (ho : out.Reliable) {q : ρ} {rest : List ρ} (h : s.asked w = q :: rest) :
    ∃ t, step m work spawned s (.work w) = some t := by
  obtain ⟨boxes, hboxes, -⟩ := ho.take_cons w s.toWorker q rest h
  exact ⟨_, by simp only [step, hboxes]; rfl⟩

theorem exists_receive (hb : back.Reliable) (hall : s.sent = n ∧ s.received < n) {r : κ} {rest : List κ}
    (h : s.answered w = r :: rest) (takes : (m.receive r s.data).isSome) :
    ∃ t, step m work spawned s (.receive w) = some t := by
  obtain ⟨boxes, hboxes, -⟩ := hb.take_cons w s.toMaster r rest h
  obtain ⟨d, hd⟩ := Option.isSome_iff_exists.mp takes
  exact ⟨_, by simp only [step, if_pos hall, hboxes, Option.bind_some, hd]; rfl⟩

theorem start_inv (ho : out.Reliable) (hb : back.Reliable) :
    Inv m work spawned request before (start out back (before 0)) [] where
  nodup := List.nodup_nil
  count := rfl
  alive := by simp
  sent_le := Nat.zero_le n
  all_sent h := absurd rfl h
  busy w hw := absurd hw (Nat.not_lt_zero _)
  idle w _ := ⟨congrFun ho.empty w, congrFun hb.empty w⟩
  data := rfl

theorem Inv.sends (ho : out.Reliable) (h : Inv m work spawned request before s ws) (hm : Sends m request before)
    (ht : step m work spawned s .send = some t) : Inv m work spawned request before t ws := by
  obtain ⟨hn, q, hq, hsent, hreceived, hanswered, hasked⟩ := step_send ho ht
  have hnil : ws = [] := by
    by_contra hne
    exact absurd (h.all_sent hne) (Nat.ne_of_lt hn)
  subst hnil
  have hdata : s.data = before s.sent := (Option.some.inj h.data).symm
  rw [hdata, hm ⟨s.sent, hn⟩] at hq
  obtain ⟨rfl, hd⟩ := Prod.mk.inj (Option.some.inj hq)
  obtain ⟨hworker, hmaster⟩ := h.idle ⟨s.sent, hn⟩ (by simp)
  have hother : ∀ w : Fin n, (w : Nat) ≠ s.sent → t.asked w = s.asked w := by
    intro w hw
    have hne : w ≠ ⟨s.sent, hn⟩ := fun he => hw (congrArg Fin.val he)
    rw [hasked]
    split
    next => exact Function.update_of_ne hne _ _
    next => rfl
  refine ⟨h.nodup, hreceived ▸ h.count, h.alive, by omega, fun hne => absurd rfl hne,
    fun w hw sp hws => ?_, fun w hw => ?_, by rw [hsent]; exact congrArg some hd⟩
  · by_cases hlast : (w : Nat) = s.sent
    · obtain rfl : w = ⟨s.sent, hn⟩ := Fin.ext hlast
      refine .inl ⟨?_, hanswered ▸ hmaster⟩
      rw [hasked, if_pos sp, Function.update_self, hworker, List.nil_append]
    · simp only [Busy, hother w hlast, hanswered]
      exact h.busy w (by omega) sp hws
  · by_cases hlast : (w : Nat) = s.sent
    · obtain rfl : w = ⟨s.sent, hn⟩ := Fin.ext hlast
      have sp : ¬spawned ⟨s.sent, hn⟩ = true := fun sp => hw ⟨by simp [hsent], sp, List.not_mem_nil⟩
      rw [hasked, if_neg sp, hanswered]
      exact ⟨hworker, hmaster⟩
    · rw [hother w hlast, hanswered]
      exact h.idle w fun hbusy => hw ⟨by omega, hbusy.2⟩

theorem Inv.busy_of_ne (h : Inv m work spawned request before s ws)
    (hne : s.asked w ≠ [] ∨ s.answered w ≠ []) :
    (w : Nat) < s.sent ∧ spawned w = true ∧ w ∉ ws ∧ Busy work request s w := by
  by_cases hb : (w : Nat) < s.sent ∧ spawned w = true ∧ w ∉ ws
  · exact ⟨hb.1, hb.2.1, hb.2.2, h.busy w hb.1 hb.2.1 hb.2.2⟩
  · obtain ⟨hw, hm⟩ := h.idle w hb
    rcases hne with hne | hne
    · exact absurd hw hne
    · exact absurd hm hne

theorem Inv.works (ho : out.Reliable) (hb : back.Reliable) (h : Inv m work spawned request before s ws)
    (ht : step m work spawned s (.work w) = some t) : Inv m work spawned request before t ws := by
  obtain ⟨q, rest, hq, hasked, hanswered, hsent, hreceived, hdata⟩ := step_work ho hb ht
  obtain ⟨hlt, sp, hws, ⟨hone, hmaster⟩ | ⟨hnone, -⟩⟩ := h.busy_of_ne (w := w) (.inl (by simp [hq]))
  · obtain ⟨rfl, rfl⟩ := List.cons.inj (hq.symm.trans hone)
    refine ⟨h.nodup, hreceived ▸ h.count, h.alive, hsent ▸ h.sent_le, hsent ▸ h.all_sent,
      fun v hv spv hvs => ?_, fun v hv => ?_, by rw [hsent, hdata]; exact h.data⟩
    · rw [Busy, hasked, hanswered]
      by_cases hvw : v = w
      · subst hvw
        exact .inr (by simp [hmaster])
      · rw [Function.update_of_ne hvw, Function.update_of_ne hvw]
        exact h.busy v (hsent ▸ hv) spv hvs
    · have hvw : v ≠ w := by
        rintro rfl
        exact hv ⟨hsent ▸ hlt, sp, hws⟩
      rw [hasked, hanswered, Function.update_of_ne hvw, Function.update_of_ne hvw]
      exact h.idle v (hsent ▸ hv)
  · rw [hnone] at hq
    cases hq

theorem Inv.receives (hb : back.Reliable) (h : Inv m work spawned request before s ws)
    (ht : step m work spawned s (.receive w) = some t) :
    Inv m work spawned request before t (ws ++ [w]) := by
  obtain ⟨hall, r, rest, hr, hd, hanswered, hasked, hsent, hreceived⟩ := step_receive hb ht
  obtain ⟨hlt, sp, hws, ⟨-, hnone⟩ | ⟨hworker, hone⟩⟩ := h.busy_of_ne (w := w) (.inr (by simp [hr]))
  · rw [hnone] at hr
    cases hr
  · obtain ⟨rfl, rfl⟩ := List.cons.inj (hr.symm.trans hone)
    refine ⟨?_, ?_, ?_, hsent ▸ h.sent_le, fun _ => hsent ▸ hall.1, fun v hv spv hvs => ?_, fun v hv => ?_, ?_⟩
    · exact List.nodup_append.mpr ⟨h.nodup, List.nodup_singleton w, fun a ha b hb he => hws
        (List.mem_singleton.mp hb ▸ he ▸ ha)⟩
    · rw [List.length_append, h.count, hreceived, List.length_singleton]
    · intro v hv
      rcases List.mem_append.mp hv with hv | hv
      · exact h.alive v hv
      · rwa [List.mem_singleton.mp hv]
    · have hvw : v ≠ w := fun he => hvs (by simp [he])
      rw [Busy, hasked, hanswered, Function.update_of_ne hvw]
      exact h.busy v (hsent ▸ hv) spv fun hmem => hvs (List.mem_append_left _ hmem)
    · rw [hasked, hanswered]
      by_cases hvw : v = w
      · subst hvw
        simp [hworker]
      · rw [Function.update_of_ne hvw]
        refine h.idle v fun hbusy => hv ⟨hsent ▸ hbusy.1, hbusy.2.1, fun hmem => ?_⟩
        rcases List.mem_append.mp hmem with hmem | hmem
        · exact hbusy.2.2 hmem
        · exact hvw (List.mem_singleton.mp hmem)
    · have hdata := h.data
      rw [collect] at hdata ⊢
      rw [List.foldlM_append, hsent, hdata]
      simp [hd]

theorem Inv.step (ho : out.Reliable) (hb : back.Reliable) (h : Inv m work spawned request before s ws)
    (hm : Sends m request before) {e : Event n} (ht : step m work spawned s e = some t) :
    ∃ ws', Inv m work spawned request before t ws' := by
  cases e with
  | send => exact ⟨ws, h.sends ho hm ht⟩
  | work w => exact ⟨ws, h.works ho hb ht⟩
  | receive w => exact ⟨ws ++ [w], h.receives hb ht⟩

/-- The rule for whole runs. -/
theorem exists_inv (ho : out.Reliable) (hb : back.Reliable) (hm : Sends m request before)
    {es : List (Event n)} (hs : es.foldlM (Farm.step m work spawned) (start out back (before 0)) = some s) :
    ∃ ws, Inv m work spawned request before s ws := by
  refine foldlM_keeps (P := fun s => ∃ ws, Inv m work spawned request before s ws) (fun s e t hs ht => ?_)
    ⟨[], start_inv ho hb⟩ hs
  obtain ⟨ws, h⟩ := hs
  exact h.step ho hb hm ht

theorem Inv.collected (h : Inv m work spawned request before s ws) (hall : s.received = n) :
    (∀ w, w ∈ ws) ∧ collect m work request ws (before s.sent) = some s.data := by
  refine ⟨fun w => ?_, h.data⟩
  have huniv : ws.toFinset = Finset.univ := by
    refine Finset.eq_univ_of_card _ ?_
    rw [List.toFinset_card_of_nodup h.nodup, h.count, hall, Fintype.card_fin]
  exact List.mem_toFinset.mp (huniv ▸ Finset.mem_univ w)

theorem Inv.received_le (h : Inv m work spawned request before s ws) : s.received ≤ n := by
  have hle : ws.length ≤ Fintype.card (Fin n) := h.nodup.length_le_card
  rwa [h.count, Fintype.card_fin] at hle

/-- Until then somebody can go on, if every reply can be taken, or the master waits in vain. -/
theorem Inv.progress_or_stuck (ho : out.Reliable) (hb : back.Reliable)
    (h : Inv m work spawned request before s ws) (hm : Sends m request before)
    (takes : ∀ w d, (m.receive (work (request w)) d).isSome) (hrest : s.received ≠ n) :
    (∃ e t, Farm.step m work spawned s e = some t) ∨ Stuck s := by
  by_cases hsent : s.sent = n
  · have hall : s.sent = n ∧ s.received < n := ⟨hsent, lt_of_le_of_ne h.received_le hrest⟩
    by_cases hbusy : ∃ w, s.asked w ≠ [] ∨ s.answered w ≠ []
    · obtain ⟨w, hw⟩ := hbusy
      refine .inl ?_
      rcases (h.busy_of_ne hw).2.2.2 with ⟨hone, -⟩ | ⟨-, hone⟩
      · exact ⟨.work w, exists_work ho hone⟩
      · exact ⟨.receive w, exists_receive hb hall hone (takes w s.data)⟩
    · push Not at hbusy
      exact .inr ⟨hsent, hall.2, hbusy⟩
  · have hlt : s.sent < n := lt_of_le_of_ne h.sent_le hsent
    have hnil : ws = [] := by
      by_contra hne
      exact hsent (h.all_sent hne)
    have hdata : s.data = before s.sent := by
      have hd := h.data
      rw [hnil] at hd
      exact (Option.some.inj hd).symm
    exact .inl ⟨.send, _, by simp only [Farm.step, dif_pos hlt, hdata, hm ⟨s.sent, hlt⟩]; rfl⟩

theorem Inv.not_stuck (h : Inv m work spawned request before s ws) (all : ∀ w, spawned w = true) :
    ¬Stuck s := by
  rintro ⟨hsent, hlt, hnone⟩
  obtain ⟨w, hw⟩ : ∃ w, w ∉ ws := by
    by_contra hno
    push Not at hno
    have hcard : Fintype.card (Fin n) ≤ ws.length := by
      rw [← Finset.card_univ, ← List.toFinset_card_of_nodup h.nodup]
      exact Finset.card_le_card fun w _ => List.mem_toFinset.mpr (hno w)
    rw [Fintype.card_fin, h.count] at hcard
    omega
  obtain ⟨hasked, hanswered⟩ := hnone w
  rcases h.busy w (by omega) (all w) hw with ⟨hone, -⟩ | ⟨-, hone⟩
  · rw [hasked] at hone
    cases hone
  · rw [hanswered] at hone
    cases hone

theorem Inv.progress (ho : out.Reliable) (hb : back.Reliable)
    (h : Inv m work spawned request before s ws) (hm : Sends m request before)
    (takes : ∀ w d, (m.receive (work (request w)) d).isSome) (all : ∀ w, spawned w = true)
    (hrest : s.received ≠ n) : ∃ e t, Farm.step m work spawned s e = some t :=
  (h.progress_or_stuck ho hb hm takes hrest).resolve_right (h.not_stuck all)

/-- The steps that are left: three for each worker. -/
def left (s : State out back δ) : Nat :=
  3 * (n - s.sent) + ∑ w, (2 * (s.asked w).length + (s.answered w).length)

theorem left_step (ho : out.Reliable) (hb : back.Reliable) {e : Event n}
    (ht : Farm.step m work spawned s e = some t) : left t < left s := by
  cases e with
  | send =>
    obtain ⟨hn, q, -, hsent, -, hanswered, hasked⟩ := step_send ho ht
    have hsum := sum_turn (t := ⟨s.sent, hn⟩)
      (f := fun w => 2 * (s.asked w).length + (s.answered w).length)
      (g := fun w => 2 * (t.asked w).length + (t.answered w).length) fun w hw => by
        rw [hasked, hanswered]
        split
        next => rw [Function.update_of_ne hw]
        next => rfl
    have hone : (t.asked ⟨s.sent, hn⟩).length ≤ (s.asked ⟨s.sent, hn⟩).length + 1 := by
      rw [hasked]
      split <;> simp
    simp only [hanswered] at hsum
    simp only [left, hsent, hanswered]
    omega
  | work w =>
    obtain ⟨q, rest, hq, hasked, hanswered, hsent, -, -⟩ := step_work ho hb ht
    have hsum := sum_turn (t := w) (f := fun w => 2 * (s.asked w).length + (s.answered w).length)
      (g := fun v => 2 * (t.asked v).length + (t.answered v).length)
      fun v hv => by rw [hasked, hanswered, Function.update_of_ne hv, Function.update_of_ne hv]
    have hlen : (t.asked w).length + 1 = (s.asked w).length := by
      rw [hasked, Function.update_self, hq, List.length_cons]
    have hlen' : (t.answered w).length = (s.answered w).length + 1 := by
      rw [hanswered, Function.update_self, List.length_append, List.length_singleton]
    simp only [left, hsent]
    omega
  | receive w =>
    obtain ⟨-, r, rest, hr, -, hanswered, hasked, hsent, -⟩ := step_receive hb ht
    have hsum := sum_turn (t := w) (f := fun w => 2 * (s.asked w).length + (s.answered w).length)
      (g := fun v => 2 * (t.asked v).length + (t.answered v).length)
      fun v hv => by rw [hasked, hanswered, Function.update_of_ne hv]
    have hlen : (t.answered w).length + 1 = (s.answered w).length := by
      rw [hanswered, Function.update_self, hr, List.length_cons]
    have hlen' : (t.asked w).length = (s.asked w).length := by rw [hasked]
    simp only [left, hsent]
    omega

theorem length_le (ho : out.Reliable) (hb : back.Reliable) {es : List (Event n)} {d : δ}
    (hs : es.foldlM (Farm.step m work spawned) (start out back d) = some s) : es.length ≤ 3 * n := by
  have hle := length_add_le_of_foldlM (fun s e t ht => left_step ho hb ht) hs
  have hstart : left (start out back d) = 3 * n := by
    simp [left, start, State.asked, State.answered, ho.empty, hb.empty]
  omega

theorem exists_run (ho : out.Reliable) (hb : back.Reliable) (hm : Sends m request before)
    (takes : ∀ w d, (m.receive (work (request w)) d).isSome) (all : ∀ w, spawned w = true) :
    ∃ (es : List (Event n)) (s : State out back δ),
      es.foldlM (Farm.step m work spawned) (start out back (before 0)) = some s ∧ s.received = n :=
  exists_foldlM_of_progress (I := fun s => ∃ ws, Inv m work spawned request before s ws)
    (fun _ _ _ ht => left_step ho hb ht) (fun _ _ _ ⟨_, h⟩ ht => h.step ho hb hm ht)
    (fun _ ⟨_, h⟩ hrest => h.progress ho hb hm takes all hrest) ⟨[], start_inv ho hb⟩

end Steps

end Farm

end TcpAndParallel
