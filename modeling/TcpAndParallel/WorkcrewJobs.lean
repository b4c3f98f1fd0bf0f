import Mathlib.Algebra.Group.Nat.Defs
import TcpAndParallel.Custody
import TcpAndParallel.WorkcrewLocks

namespace TcpAndParallel

namespace Workcrew

variable {τ : Type*} [DecidableEq τ]

/-- Where a node is when no thread has it. -/
inductive Shelf
  | unborn | aq | rq | finished
  deriving DecidableEq

/-- Where a thread has a node that nobody else may use. -/
def carries : Pc → Bool
  | .acceptor p => (p matches .number | .stamp | .put)
  | .processor p => (p matches .stamp | .unlock | .lockRq | .put)
  | .responder p => (p matches .stamp | .unlock | .logResponder | .logJob | .logProcessor | .send | .free)
  | .stop _ => false

def isAcceptor : Pc → Bool
  | .acceptor _ => true
  | _ => false

def carried (pc : τ → Pc) (d : Crew τ) (t : τ) : Option Nat := if carries (pc t) then d.hand t else none

def HandedOver (place : Nat → Spot Shelf τ) (pc : τ → Pc) (produced : List Nat) : Prop :=
  ∀ n ∈ produced, place n ≠ .shelf .unborn ∧ ∀ t, place n = .hand t → isAcceptor (pc t) = false

def Sent (place : Nat → Spot Shelf τ) (pc : τ → Pc) (n : Nat) : Prop :=
  place n = .shelf .finished ∨ ∃ t, place n = .hand t ∧ pc t = .responder .free

/-- The nodes are in the places that `place` gives, as far as the queues do not say it. -/
structure Accounted (place : Nat → Spot Shelf τ) (pc : τ → Pc) (d : Crew τ) : Prop where
  unborn : Stocks place .unborn (d.mallocs ≤ ·)
  finished : Stocks place .finished (d.freed · = true)
  hands : Tracks place (carried pc d)
  produced : HandedOver place pc d.produced
  once : d.responded.Nodup
  responded : ∀ n, n ∈ d.responded ↔ Sent place pc n

/-- Every node is in the place that `place` gives, with `as` and `rs` on the queues. -/
structure Located (place : Nat → Spot Shelf τ) (as rs : List Nat) (pc : τ → Pc) (d : Crew τ) : Prop
    extends Accounted place pc d where
  aq : d.aq.Holds d.next as
  rq : d.rq.Holds d.next rs
  onAq : Stocks place .aq (· ∈ as)
  onRq : Stocks place .rq (· ∈ rs)

/-- What a step from `p` to `q` that moves no node leaves as it is. -/
structure Quiet (p q : Pc) : Prop where
  carries : carries q = carries p
  acceptor : isAcceptor q = isAcceptor p
  sent : q = .responder .free ↔ p = .responder .free

theorem quiet_of_next {p q : Pc} (hn : (code p : Op τ).next? = some q) : Quiet p q := by
  rcases p with p | p | p | p <;> cases p <;>
    simp [Instr.next?, branch, onNode, readNode] at hn <;> subst hn <;>
    exact ⟨rfl, rfl, by simp⟩

omit [DecidableEq τ] in
theorem quiet_of_test {d : Crew τ} {p q : Pc} (h : Test d p q) : Quiet p q := by
  cases h <;> exact ⟨rfl, rfl, by simp⟩

theorem quiet_of_log {p q : Pc} (h : Log p q) : Quiet p q := by
  cases h <;> exact ⟨rfl, rfl, by simp⟩

section Moves

variable {place : Nat → Spot Shelf τ} {pc : τ → Pc} {t : τ} {next : Pc} {n : Nat} {spot : Spot Shelf τ}

theorem HandedOver.turn {produced : List Nat} (h : HandedOver place pc produced)
    (ha : isAcceptor next = isAcceptor (pc t)) :
    HandedOver place (Function.update pc t next) produced := by
  intro m hm
  refine ⟨(h m hm).1, fun u hu => ?_⟩
  have hno := (h m hm).2 u hu
  by_cases he : u = t
  · subst he
    rw [Function.update_self, ha]
    exact hno
  · rw [Function.update_of_ne he]
    exact hno

theorem HandedOver.move {produced : List Nat} (h : HandedOver place pc produced)
    (ha : isAcceptor next = isAcceptor (pc t))
    (hspot : n ∈ produced → spot ≠ .shelf .unborn ∧ ∀ u, spot = .hand u → isAcceptor (pc u) = false) :
    HandedOver (Function.update place n spot) (Function.update pc t next) produced := by
  refine HandedOver.turn (fun m hm => ?_) ha
  by_cases he : m = n
  · subst he
    rw [Function.update_self]
    exact hspot hm
  · rw [Function.update_of_ne he]
    exact h m hm

omit [DecidableEq τ] in
theorem HandedOver.add {produced : List Nat} (h : HandedOver place pc produced) {x : Shelf}
    (hn : place n = .shelf x) (hx : x ≠ .unborn) : HandedOver place pc (produced ++ [n]) := by
  intro m hm
  rcases List.mem_append.mp hm with hm | hm
  · exact h m hm
  · obtain rfl := List.mem_singleton.mp hm
    rw [hn]
    exact ⟨by simpa using hx, nofun⟩

theorem sent_turn (hs : next = .responder .free ↔ pc t = .responder .free) (m : Nat) :
    Sent place (Function.update pc t next) m ↔ Sent place pc m := by
  have same : ∀ u, Function.update pc t next u = .responder .free ↔ pc u = .responder .free := by
    intro u
    by_cases he : u = t
    · subst he
      rw [Function.update_self, hs]
    · rw [Function.update_of_ne he]
  simp only [Sent, same]

theorem sent_move (hp : pc t ≠ .responder .free) (hn : next ≠ .responder .free)
    (hold : ¬Sent place pc n) (hspot : spot ≠ .shelf .finished) (hand : ∀ u, spot = .hand u → u = t)
    (m : Nat) :
    Sent (Function.update place n spot) (Function.update pc t next) m ↔ Sent place pc m := by
  rw [sent_turn (by simp [hp, hn])]
  by_cases he : m = n
  · subst he
    refine ⟨fun h => ?_, fun h => absurd h hold⟩
    rcases h with h | ⟨u, hu, hf⟩
    · exact absurd (by simpa using h) hspot
    · have := hand u (by simpa using hu)
      exact absurd (this ▸ hf) hp
  · simp only [Sent, Function.update_of_ne he]

end Moves

section Accounted

variable {place : Nat → Spot Shelf τ} {as rs : List Nat} {pc : τ → Pc} {d d' : Crew τ} {t : τ}
  {next : Pc} {n : Nat} {x : Shelf}

theorem carried_turn (hh : ∀ u ≠ t, d'.hand u = d.hand u) :
    carried (Function.update pc t next) d' =
      Function.update (carried pc d) t (if carries next then d'.hand t else none) := by
  funext u
  by_cases hu : u = t
  · subst hu
    simp [carried]
  · simp [carried, Function.update_of_ne hu, hh u hu]

theorem carried_quiet (hc : carries next = carries (pc t)) (hh : d'.hand = d.hand) :
    carried (Function.update pc t next) d' = carried pc d := by
  have hsame : (if carries (pc t) then d.hand t else none) = carried pc d t := rfl
  rw [carried_turn (d := d) fun u _ => by rw [hh], hc, hh, hsame, Function.update_eq_self]

structure SameBooks (d d' : Crew τ) : Prop where
  mallocs : d'.mallocs = d.mallocs
  freed : d'.freed = d.freed
  produced : d'.produced = d.produced
  responded : d'.responded = d.responded

theorem Accounted.turn (h : Accounted place pc d) (hq : Quiet (pc t) next) (hd : SameBooks d d')
    (hh : d'.hand = d.hand) : Accounted place (Function.update pc t next) d' := by
  constructor
  · rw [hd.mallocs]
    exact h.unborn
  · rw [hd.freed]
    exact h.finished
  · rw [carried_quiet hq.carries hh]
    exact h.hands
  · rw [hd.produced]
    exact h.produced.turn hq.acceptor
  · rw [hd.responded]
    exact h.once
  · intro m
    rw [hd.responded, h.responded m, sent_turn hq.sent]

omit [DecidableEq τ] in
theorem Accounted.carried_at (h : Accounted place pc d) (hc : carries (pc t) = true)
    (hn : d.hand t = some n) : place n = .hand t := by
  refine (h.hands t n).mp ?_
  rw [carried, if_pos hc, hn]

theorem Accounted.responded_move (h : Accounted place pc d) {spot : Spot Shelf τ}
    (hp : pc t ≠ .responder .free) (hn : next ≠ .responder .free) (old : place n ≠ .shelf .finished)
    (hand : ∀ u, place n = .hand u → u = t) (new : spot ≠ .shelf .finished)
    (hand' : ∀ u, spot = .hand u → u = t) (m : Nat) :
    m ∈ d.responded ↔ Sent (Function.update place n spot) (Function.update pc t next) m := by
  refine (h.responded m).trans (sent_move hp hn ?_ new hand' m).symm
  rintro (hf | ⟨u, hu, hf⟩)
  · exact old hf
  · exact hp (hand u hu ▸ hf)

structure Takes (p q : Pc) : Prop where
  before : carries p = false
  after : carries q = true
  worker : isAcceptor p = false ∧ isAcceptor q = false
  unsent : p ≠ .responder .free ∧ q ≠ .responder .free

theorem Accounted.take (h : Accounted place pc d) (ht : Takes (pc t) next) (hd : SameBooks d d')
    (hh : d'.hand = Function.update d.hand t (some n)) (hn : place n = .shelf x)
    (hx : x ≠ .unborn ∧ x ≠ .finished) :
    Accounted (Function.update place n (.hand t)) (Function.update pc t next) d' := by
  have hempty : carried pc d t = none := by simp [carried, ht.before]
  constructor
  · rw [hd.mallocs]
    exact h.unborn.frame (fun hm => hx.1 (by simpa [hn] using (h.unborn n).mp hm)) (by simp)
  · rw [hd.freed]
    exact h.finished.frame (fun hm => hx.2 (by simpa [hn] using (h.finished n).mp hm)) (by simp)
  · rw [carried_turn (d := d) fun u hu => by rw [hh, Function.update_of_ne hu]]
    simpa [ht.after, hh] using h.hands.take hempty hn
  · rw [hd.produced]
    refine h.produced.move (ht.worker.2.trans ht.worker.1.symm) fun _ => ⟨by simp, fun u hu => ?_⟩
    obtain rfl := Spot.hand.inj hu
    exact ht.worker.1
  · rw [hd.responded]
    exact h.once
  · rw [hd.responded]
    exact h.responded_move ht.unsent.1 ht.unsent.2 (by simp [hn, hx.2]) (by simp [hn]) (by simp)
      (by simp [eq_comm])

theorem Accounted.miss (h : Accounted place pc d) (hc : carries (pc t) = false)
    (ha : isAcceptor next = isAcceptor (pc t)) (hs : next = .responder .free ↔ pc t = .responder .free)
    (hd : SameBooks d d') (hh : d'.hand = Function.update d.hand t none) :
    Accounted place (Function.update pc t next) d' := by
  have hempty : carried pc d t = none := by simp [carried, hc]
  constructor
  · rw [hd.mallocs]
    exact h.unborn
  · rw [hd.freed]
    exact h.finished
  · rw [carried_turn (d := d) fun u hu => by rw [hh, Function.update_of_ne hu], hh,
      Function.update_self, ite_self, ← hempty, Function.update_eq_self]
    exact h.hands
  · rw [hd.produced]
    exact h.produced.turn ha
  · rw [hd.responded]
    exact h.once
  · intro m
    rw [hd.responded, h.responded m, sent_turn hs]

structure Drops (p q : Pc) : Prop where
  before : carries p = true
  after : carries q = false
  acceptor : isAcceptor q = isAcceptor p
  unsent : p ≠ .responder .free ∧ q ≠ .responder .free

theorem Accounted.drop (h : Accounted place pc d) (ht : Drops (pc t) next) (hd : SameBooks d d')
    (hh : d'.hand = d.hand) (hn : d.hand t = some n) (hx : x ≠ .unborn ∧ x ≠ .finished) :
    Accounted (Function.update place n (.shelf x)) (Function.update pc t next) d' := by
  have hplace := h.carried_at ht.before hn
  constructor
  · rw [hd.mallocs]
    exact h.unborn.frame (fun hm => h.unborn.ne_hand hm hplace) (by simp [hx.1])
  · rw [hd.freed]
    exact h.finished.frame (fun hm => h.finished.ne_hand hm hplace) (by simp [hx.2])
  · rw [carried_turn (d := d) fun u _ => by rw [hh]]
    simpa [ht.after] using h.hands.drop (by rw [carried, if_pos ht.before, hn]) x
  · rw [hd.produced]
    exact h.produced.move ht.acceptor fun _ => ⟨by simp [hx.1], nofun⟩
  · rw [hd.responded]
    exact h.once
  · rw [hd.responded]
    exact h.responded_move ht.unsent.1 ht.unsent.2 (by simp [hplace]) (by simp [hplace])
      (by simp [hx.2]) (by simp)

end Accounted

section Located

variable {place : Nat → Spot Shelf τ} {as rs : List Nat} {pc : τ → Pc} {d d' : Crew τ} {t : τ}
  {next : Pc} {n : Nat}

theorem Located.turn (h : Located place as rs pc d) (hq : Quiet (pc t) next) (hd : SameBooks d d')
    (hh : d'.hand = d.hand) (haq : d'.aq = d.aq) (hrq : d'.rq = d.rq) (hnext : d'.next = d.next) :
    Located place as rs (Function.update pc t next) d' :=
  ⟨h.toAccounted.turn hq hd hh, haq ▸ hnext ▸ h.aq, hrq ▸ hnext ▸ h.rq, h.onAq, h.onRq⟩

theorem Located.malloc (h : Located place as rs pc d) (hp : pc t = .acceptor .malloc) :
    Located (Function.update place d.mallocs (.hand t)) as rs (Function.update pc t (.acceptor .number))
      { d with hand := Function.update d.hand t (some d.mallocs), mallocs := d.mallocs + 1 } := by
  have hn : place d.mallocs = .shelf .unborn := (h.unborn _).mp le_rfl
  have hempty : carried pc d t = none := by simp [carried, hp, carries]
  refine ⟨⟨?_, ?_, ?_, ?_, h.once, ?_⟩, h.aq, h.rq, ?_, ?_⟩
  · exact h.unborn.remove (fun j => by simp; omega) (by simp)
  · exact h.finished.frame (fun hm => by simpa [hn] using (h.finished _).mp hm) (by simp)
  · rw [carried_turn (d := d) fun u hu => by simp [hu]]
    simpa [carries] using h.hands.take hempty hn
  · exact h.produced.move (by simp [hp, isAcceptor]) fun hm => absurd hn (h.produced _ hm).1
  · exact h.responded_move (by simp [hp]) (by simp) (by simp [hn]) (by simp [hn]) (by simp) (by simp [eq_comm])
  · exact h.onAq.frame (fun hm => by simpa [hn] using (h.onAq _).mp hm) (by simp)
  · exact h.onRq.frame (fun hm => by simpa [hn] using (h.onRq _).mp hm) (by simp)

theorem Located.putAq (h : Located place as rs pc d) (hp : pc t = .acceptor .put) (hn : d.hand t = some n) :
    Located (Function.update place n (.shelf .aq)) (n :: as) rs (Function.update pc t (.acceptor .unlock))
      { d with next := (queuePut d.next d.aq n).1, aq := (queuePut d.next d.aq n).2,
               produced := d.produced ++ [n] } := by
  have hd : Drops (pc t) (.acceptor .unlock) := by
    rw [hp]
    exact ⟨rfl, rfl, rfl, by simp⟩
  have hplace := h.carried_at hd.before hn
  have hAq : n ∉ as := fun hm => h.onAq.ne_hand hm hplace
  have hRq : n ∉ rs := fun hm => h.onRq.ne_hand hm hplace
  have hacc : Accounted (Function.update place n (.shelf .aq)) (Function.update pc t (.acceptor .unlock)) d :=
    h.toAccounted.drop hd ⟨rfl, rfl, rfl, rfl⟩ rfl hn (by simp)
  refine ⟨⟨hacc.unborn, hacc.finished, hacc.hands, ?_, hacc.once, hacc.responded⟩, ?_, ?_, ?_, ?_⟩
  · exact hacc.produced.add (Function.update_self ..) nofun
  · exact queuePut_holds h.aq hAq
  · exact queuePut_frame h.rq hRq
  · exact h.onAq.add fun j => by simp
  · exact h.onRq.frame hRq (by simp)

theorem Located.putRq (h : Located place as rs pc d) (hp : pc t = .processor .put) (hn : d.hand t = some n) :
    Located (Function.update place n (.shelf .rq)) as (n :: rs) (Function.update pc t (.processor .unlockRq))
      { d with next := (queuePut d.next d.rq n).1, rq := (queuePut d.next d.rq n).2 } := by
  have hd : Drops (pc t) (.processor .unlockRq) := by
    rw [hp]
    exact ⟨rfl, rfl, rfl, by simp⟩
  have hplace := h.carried_at hd.before hn
  have hAq : n ∉ as := fun hm => h.onAq.ne_hand hm hplace
  have hRq : n ∉ rs := fun hm => h.onRq.ne_hand hm hplace
  refine ⟨h.toAccounted.drop hd ⟨rfl, rfl, rfl, rfl⟩ rfl hn (by simp), ?_, ?_, ?_, ?_⟩
  · exact queuePut_frame h.aq hAq
  · exact queuePut_holds h.rq hRq
  · exact h.onAq.frame hAq (by simp)
  · exact h.onRq.add fun j => by simp

theorem Located.getAq (h : Located place as rs pc d) (hp : pc t = .processor .get) :
    ∃ place', Located place' as.tail rs (Function.update pc t (.processor .stamp))
      { d with hand := Function.update d.hand t (queueGet d.next d.aq).1, aq := (queueGet d.next d.aq).2 } := by
  obtain ⟨hgot, hrest⟩ := queueGet_holds h.aq
  have ht : Takes (pc t) (.processor .stamp) := by
    rw [hp]
    exact ⟨rfl, rfl, ⟨rfl, rfl⟩, by simp⟩
  cases as with
  | nil =>
    refine ⟨place, h.toAccounted.miss ht.before (by simp [hp, isAcceptor]) (by simp [hp])
      ⟨rfl, rfl, rfl, rfl⟩ ?_, hrest, h.rq, h.onAq, h.onRq⟩
    rw [hgot]
    rfl
  | cons n as =>
    have hn : place n = .shelf .aq := (h.onAq n).mp List.mem_cons_self
    refine ⟨Function.update place n (.hand t), ?_, hrest, h.rq, ?_, ?_⟩
    · exact h.toAccounted.take ht ⟨rfl, rfl, rfl, rfl⟩ (by rw [hgot]; rfl) hn (by simp)
    · exact h.onAq.tail (List.nodup_cons.mp h.aq.nodup).1 (by simp)
    · exact h.onRq.frame (fun hm => by simpa [hn] using (h.onRq _).mp hm) (by simp)

theorem Located.getRq (h : Located place as rs pc d) (hp : pc t = .responder .get) :
    ∃ place', Located place' as rs.tail (Function.update pc t (.responder .stamp))
      { d with hand := Function.update d.hand t (queueGet d.next d.rq).1, rq := (queueGet d.next d.rq).2 } := by
  obtain ⟨hgot, hrest⟩ := queueGet_holds h.rq
  have ht : Takes (pc t) (.responder .stamp) := by
    rw [hp]
    exact ⟨rfl, rfl, ⟨rfl, rfl⟩, by simp⟩
  cases rs with
  | nil =>
    refine ⟨place, h.toAccounted.miss ht.before (by simp [hp, isAcceptor]) (by simp [hp])
      ⟨rfl, rfl, rfl, rfl⟩ ?_, h.aq, hrest, h.onAq, h.onRq⟩
    rw [hgot]
    rfl
  | cons n rs =>
    have hn : place n = .shelf .rq := (h.onRq n).mp List.mem_cons_self
    refine ⟨Function.update place n (.hand t), ?_, h.aq, hrest, ?_, ?_⟩
    · exact h.toAccounted.take ht ⟨rfl, rfl, rfl, rfl⟩ (by rw [hgot]; rfl) hn (by simp)
    · exact h.onAq.frame (fun hm => by simpa [hn] using (h.onAq _).mp hm) (by simp)
    · exact h.onRq.tail (List.nodup_cons.mp h.rq.nodup).1 (by simp)

theorem Located.send (h : Located place as rs pc d) (hp : pc t = .responder .send) (hn : d.hand t = some n) :
    Located place as rs (Function.update pc t (.responder .free)) { d with responded := d.responded ++ [n] } := by
  have hplace := h.carried_at (by simp [hp, carries]) hn
  have hnew : n ∉ d.responded := by
    rw [h.responded n]
    rintro (hf | ⟨u, hu, hf⟩)
    · simp [hplace] at hf
    · obtain rfl := Spot.hand.inj (hplace.symm.trans hu)
      simp [hp] at hf
  refine ⟨⟨h.unborn, h.finished, ?_, ?_, ?_, fun m => ?_⟩, h.aq, h.rq, h.onAq, h.onRq⟩
  · rw [carried_quiet (d := d) (by simp [hp, carries]) (by rfl)]
    exact h.hands
  · exact h.produced.turn (by simp [hp, isAcceptor])
  · exact List.nodup_append.mpr ⟨h.once, List.nodup_singleton n, by grind⟩
  · rw [List.mem_append, List.mem_singleton, h.responded m]
    constructor
    · rintro ((hf | ⟨u, hu, hf⟩) | rfl)
      · exact .inl hf
      · have hne : u ≠ t := by
          rintro rfl
          simp [hp] at hf
        exact .inr ⟨u, hu, by rw [Function.update_of_ne hne, hf]⟩
      · exact .inr ⟨t, hplace, Function.update_self ..⟩
    · rintro (hf | ⟨u, hu, hf⟩)
      · exact .inl (.inl hf)
      · by_cases he : u = t
        · subst he
          have hm := (h.hands u m).mpr hu
          simp [carried, hp, carries, hn] at hm
          exact .inr hm.symm
        · rw [Function.update_of_ne he] at hf
          exact .inl (.inr ⟨u, hu, hf⟩)

theorem Located.free (h : Located place as rs pc d) (hp : pc t = .responder .free) (hn : d.hand t = some n) :
    Located (Function.update place n (.shelf .finished)) as rs (Function.update pc t (.responder .lock))
      { d with freed := Function.update d.freed n true } := by
  have hc : carries (pc t) = true := by simp [hp, carries]
  have hplace := h.carried_at hc hn
  refine ⟨⟨?_, ?_, ?_, ?_, h.once, fun m => ?_⟩, h.aq, h.rq, ?_, ?_⟩
  · exact h.unborn.frame (fun hm => h.unborn.ne_hand hm hplace) (by simp)
  · refine h.finished.add fun j => ?_
    by_cases hj : j = n
    · simp [hj]
    · simp [hj]
  · rw [carried_turn (d := d) fun u _ => by rfl]
    simpa [carries] using h.hands.drop (by rw [carried, if_pos hc, hn]) .finished
  · exact h.produced.move (by simp [hp, isAcceptor]) fun _ => ⟨by simp, by simp⟩
  · rw [h.responded m]
    by_cases hm : m = n
    · subst hm
      exact ⟨fun _ => .inl (Function.update_self ..), fun _ => .inr ⟨t, hplace, hp⟩⟩
    · simp only [Sent, Function.update_of_ne hm]
      refine or_congr_right (exists_congr fun u => and_congr_right fun hu => ?_)
      have hne : u ≠ t := by
        rintro rfl
        have hi := (h.hands u m).mpr hu
        simp [carried, hc, hn] at hi
        exact hm hi.symm
      rw [Function.update_of_ne hne]
  · exact h.onAq.frame (fun hm => h.onAq.ne_hand hm hplace) (by simp)
  · exact h.onRq.frame (fun hm => h.onRq.ne_hand hm hplace) (by simp)

end Located

/-- Every step keeps the nodes located, whether or not the mutexes are kept to. -/
theorem located_step {s s' : State τ} {e : Step τ} (h : s.step code e = some s')
    {place : Nat → Spot Shelf τ} {as rs : List Nat} (hs : Located place as rs s.pc s.data) :
    ∃ place' as' rs', Located place' as' rs' s'.pc s'.data := by
  cases e with
  | spurious c t =>
    obtain ⟨-, rfl⟩ := step_spurious h
    exact ⟨place, as, rs, hs⟩
  | run t success woken =>
    obtain ⟨next, hpc, ⟨hn, hd⟩ | he⟩ := step_effect h
    · rw [hpc, hd]
      exact ⟨place, as, rs, hs.turn (quiet_of_next hn) ⟨rfl, rfl, rfl, rfl⟩ rfl rfl rfl rfl⟩
    · rw [hpc]
      generalize hp : s.pc t = p at he
      generalize s'.data = d' at he
      cases he with
      | test ht => exact ⟨place, as, rs, hs.turn (hp ▸ quiet_of_test ht) ⟨rfl, rfl, rfl, rfl⟩ rfl rfl rfl rfl⟩
      | log hl => exact ⟨place, as, rs, hs.turn (hp ▸ quiet_of_log hl) ⟨rfl, rfl, rfl, rfl⟩ rfl rfl rfl rfl⟩
      | malloc => exact ⟨_, as, rs, hs.malloc hp⟩
      | ouch =>
        exact ⟨place, as, rs, hs.toAccounted.miss (by rw [hp]; rfl) (by simp [hp, isAcceptor])
          (by simp [hp]) ⟨rfl, rfl, rfl, rfl⟩ rfl, hs.aq, hs.rq, hs.onAq, hs.onRq⟩
      | number | clear | clearRq =>
        refine ⟨place, as, rs, hs.turn ?_ ⟨rfl, rfl, rfl, rfl⟩ rfl rfl rfl rfl⟩
        rw [hp]
        exact ⟨rfl, rfl, by simp⟩
      | stamp _ _ _ _ hpq =>
        refine ⟨place, as, rs, hs.turn ?_ ⟨rfl, rfl, rfl, rfl⟩ rfl rfl rfl rfl⟩
        rw [hp]
        rcases hpq with ⟨rfl, rfl⟩ | ⟨rfl, rfl⟩ | ⟨rfl, rfl⟩ <;> exact ⟨rfl, rfl, by simp⟩
      | putAq hn => exact ⟨_, _, rs, hs.putAq hp hn⟩
      | putRq hn => exact ⟨_, as, _, hs.putRq hp hn⟩
      | getAq =>
        obtain ⟨place', h'⟩ := hs.getAq hp
        exact ⟨place', _, rs, h'⟩
      | getRq =>
        obtain ⟨place', h'⟩ := hs.getRq hp
        exact ⟨place', as, _, h'⟩
      | send hn => exact ⟨place, as, rs, hs.send hp hn⟩
      | free hn => exact ⟨_, as, rs, hs.free hp hn⟩

omit [DecidableEq τ] in
theorem located_start (pc : τ → Pc) :
    Located (fun _ => .shelf .unborn) [] [] pc (initializeStructs τ) := by
  have hempty : ∀ t, carried pc (initializeStructs τ) t = none := by simp [carried, initializeStructs]
  refine ⟨⟨fun n => ?_, fun n => ?_, fun t n => ?_, fun n hn => ?_, List.nodup_nil, fun n => ?_⟩, ?_, ?_,
    fun n => ?_, fun n => ?_⟩
  · simp [initializeStructs]
  · simp [initializeStructs]
  · simp [hempty]
  · simp [initializeStructs] at hn
  · simp [initializeStructs, Sent]
  · exact queueInit_holds _
  · exact queueInit_holds _
  · simp
  · simp

theorem located_of_reaches {pc : τ → Pc} {C : State τ → Step τ → Prop} {s : State τ}
    (h : Reaches (Machine.step code) C (startServer pc) s) :
    ∃ place as rs, Located place as rs s.pc s.data := by
  refine Reaches.invariant (I := fun s => ∃ place as rs, Located place as rs s.pc s.data) h
    ⟨_, _, _, located_start pc⟩ ?_
  rintro s e s' ⟨place, as, rs, hs⟩ - he
  exact located_step he hs

/-- Between drawing a number and putting the node on the accept queue. -/
def drawing : Pc → Bool
  | .acceptor p => (p matches .stamp | .put)
  | _ => false

/-- The nodes are numbered in the order in which they were produced. -/
structure Numbered (pc : τ → Pc) (d : Crew τ) : Prop where
  issued : d.produced.map d.job = (List.range d.produced.length).map Int32.ofNat
  drawn : ∀ t n, drawing (pc t) = true → d.hand t = some n →
    d.job n = Int32.ofNat d.produced.length ∧ d.numconnects = Int32.ofNat (d.produced.length + 1)
  idle : (∀ t, drawing (pc t) = false) → d.numconnects = Int32.ofNat d.produced.length

section Numbered

variable {pc : τ → Pc} {d d' : Crew τ} {t : τ} {next : Pc}

theorem Numbered.turn (h : Numbered pc d) (hdraw : drawing next = drawing (pc t))
    (hh : ∀ u, drawing (pc u) = true → d'.hand u = d.hand u) (hp : d'.produced = d.produced)
    (hj : d'.job = d.job) (hn : d'.numconnects = d.numconnects) :
    Numbered (Function.update pc t next) d' := by
  have same : ∀ u, drawing (Function.update pc t next u) = drawing (pc u) := by
    intro u
    by_cases hu : u = t
    · subst hu
      rw [Function.update_self, hdraw]
    · rw [Function.update_of_ne hu]
  constructor
  · rw [hp, hj]
    exact h.issued
  · intro u n hu hm
    rw [same] at hu
    rw [hh u hu] at hm
    rw [hp, hj, hn]
    exact h.drawn u n hu hm
  · intro hu
    rw [hp, hn]
    exact h.idle fun u => same u ▸ hu u

theorem Numbered.number {n : Nat} (h : Numbered pc d) (alone : ∀ u, drawing (pc u) = false)
    (hnew : n ∉ d.produced) (hn : d.hand t = some n) :
    Numbered (Function.update pc t (.acceptor .stamp))
      { d with job := Function.update d.job n d.numconnects, numconnects := d.numconnects + 1 } := by
  have hcount := h.idle alone
  constructor
  · rw [← h.issued]
    refine List.map_congr_left fun m hm => Function.update_of_ne ?_ ..
    rintro rfl
    exact hnew hm
  · intro u m hu hm
    by_cases he : u = t
    · subst he
      obtain rfl := Option.some.inj (hn.symm.trans hm)
      simp [hcount]
    · rw [Function.update_of_ne he, alone u] at hu
      exact absurd hu (by simp)
  · intro hu
    have := hu t
    simp [drawing] at this

theorem Numbered.putAq {n : Nat} (h : Numbered pc d) (alone : ∀ u ≠ t, drawing (pc u) = false)
    (hp : pc t = .acceptor .put) (hn : d.hand t = some n) {next : Nat → Option Nat} {aq : Queue Nat} :
    Numbered (Function.update pc t (.acceptor .unlock))
      { d with next := next, aq := aq, produced := d.produced ++ [n] } := by
  obtain ⟨hjob, hcount⟩ := h.drawn t n (by simp [hp, drawing]) hn
  constructor
  · simp [List.range_succ, h.issued, hjob]
  · intro u m hu hm
    by_cases he : u = t
    · subst he
      simp [drawing] at hu
    · rw [Function.update_of_ne he, alone u he] at hu
      exact absurd hu (by simp)
  · intro _
    simpa using hcount

end Numbered

theorem drawing_holdsAq {p : Pc} (h : drawing p = true) : holdsAq p = true := by
  rcases p with p | p | p | p <;> cases p <;> simp [drawing, holdsAq] at h ⊢

theorem drawing_of_next {p q : Pc} (hn : (code p : Op τ).next? = some q) : drawing q = drawing p := by
  rcases p with p | p | p | p <;> cases p <;>
    simp [Instr.next?, branch, onNode, readNode] at hn <;> subst hn <;> rfl

theorem numbered_step {s s' : State τ} {e : Step τ} (h : s.step code e = some s')
    (guarded : Guarded .aq holdsAq (· ≠ .acceptor .ouch) s) (hC : MallocSucceeds s e)
    {place : Nat → Spot Shelf τ} {as rs : List Nat} (located : Located place as rs s.pc s.data)
    (hs : Numbered s.pc s.data) : Numbered s'.pc s'.data := by
  cases e with
  | spurious c t =>
    obtain ⟨-, rfl⟩ := step_spurious h
    exact hs
  | run t success woken =>
    obtain ⟨next, hpc, ⟨hn, hd⟩ | he⟩ := step_effect h
    · rw [hpc, hd]
      exact hs.turn (drawing_of_next hn) (fun _ _ => rfl) rfl rfl rfl
    · rw [hpc]
      -- The owner of the mutex is alone between its number and its put.
      have alone : holdsAq (s.pc t) = true → ∀ u ≠ t, drawing (s.pc u) = false := by
        intro ht u hu
        by_contra hdraw
        have hown := (guarded.owner u).mpr (drawing_holdsAq (by simpa using hdraw))
        rw [(guarded.owner t).mpr ht] at hown
        exact hu (Option.some.inj hown).symm
      have other : drawing (s.pc t) = false → ∀ u x, drawing (s.pc u) = true →
          Function.update s.data.hand t x u = s.data.hand u := by
        intro ht u x hu
        refine Function.update_of_ne ?_ ..
        rintro rfl
        simp [ht] at hu
      generalize hp : s.pc t = p at he
      generalize s'.data = d' at he
      cases he with
      | test ht => exact hs.turn (by rw [hp]; cases ht <;> rfl) (fun _ _ => rfl) rfl rfl rfl
      | log hl => exact hs.turn (by rw [hp]; cases hl <;> rfl) (fun _ _ => rfl) rfl rfl rfl
      | malloc | getAq | getRq =>
        exact hs.turn (by rw [hp]; rfl) (fun u hu => other (by rw [hp]; rfl) u _ hu) rfl rfl rfl
      | ouch failure => simp [MallocSucceeds, hp, failure] at hC
      | number hn =>
        have hplace := located.carried_at (t := t) (by rw [hp]; rfl) hn
        refine hs.number (fun u => ?_) (fun hm => ?_) hn
        · by_cases hu : u = t
          · rw [hu, hp]
            rfl
          · exact alone (by rw [hp]; rfl) u hu
        · have hno := (located.produced _ hm).2 t hplace
          simp [hp, isAcceptor] at hno
      | stamp _ _ _ _ hpq =>
        refine hs.turn ?_ (fun _ _ => rfl) rfl rfl rfl
        rw [hp]
        rcases hpq with ⟨rfl, rfl⟩ | ⟨rfl, rfl⟩ | ⟨rfl, rfl⟩ <;> rfl
      | putAq hn => exact hs.putAq (alone (by rw [hp]; rfl)) hp hn
      | putRq | send | free | clear | clearRq =>
        exact hs.turn (by rw [hp]; rfl) (fun _ _ => rfl) rfl rfl rfl

theorem numbered_of_reaches {pc : τ → Pc} (hpc : ∀ t, Entry (pc t)) {s : State τ}
    (h : Reaches (Machine.step code) MallocSucceeds (startServer pc) s) : Numbered s.pc s.data := by
  induction h with
  | start =>
    refine ⟨rfl, fun t n ht => ?_, fun _ => rfl⟩
    rcases hpc t with h | h | h | h <;> simp [startServer, Machine.start, h, drawing] at ht
  | next hr hc he ih =>
    obtain ⟨place, as, rs, hl⟩ := located_of_reaches hr
    exact numbered_step he (guardedAq hpc (fun _ _ hc => hc) hr) hc hl ih

inductive Place (τ : Type*)
  | aq
  | processor (t : τ)
  | rq
  | responder (t : τ)
  | finished

def At (s : State τ) (n : Nat) : Place τ → Prop
  | .aq => ∃ as, s.data.aq.Holds s.data.next as ∧ n ∈ as
  | .processor t => (∃ p, s.pc t = .processor p) ∧ carries (s.pc t) = true ∧ s.data.hand t = some n
  | .rq => ∃ rs, s.data.rq.Holds s.data.next rs ∧ n ∈ rs
  | .responder t => (∃ p, s.pc t = .responder p) ∧ carries (s.pc t) = true ∧ s.data.hand t = some n
  | .finished => n ∈ s.data.responded ∧ s.data.freed n = true

def Place.spot : Place τ → Spot Shelf τ
  | .aq => .shelf .aq
  | .rq => .shelf .rq
  | .processor t | .responder t => .hand t
  | .finished => .shelf .finished

section At

variable {s : State τ} {place : Nat → Spot Shelf τ} {as rs : List Nat} {n : Nat}

omit [DecidableEq τ] in
theorem Located.spot_of_at (h : Located place as rs s.pc s.data) {q : Place τ} (hq : At s n q) :
    place n = q.spot := by
  cases q with
  | aq =>
    obtain ⟨xs, hx, hn⟩ := hq
    exact (h.onAq n).mp (h.aq.unique hx ▸ hn)
  | rq =>
    obtain ⟨xs, hx, hn⟩ := hq
    exact (h.onRq n).mp (h.rq.unique hx ▸ hn)
  | processor t => exact h.carried_at hq.2.1 hq.2.2
  | responder t => exact h.carried_at hq.2.1 hq.2.2
  | finished => exact (h.finished n).mp hq.2

omit [DecidableEq τ] in
theorem Located.exists_at (h : Located place as rs s.pc s.data) (hn : n ∈ s.data.produced) :
    ∃ q, At s n q := by
  obtain ⟨hborn, hworker⟩ := h.produced n hn
  cases hp : place n with
  | shelf x =>
    cases x with
    | unborn => exact absurd hp hborn
    | aq => exact ⟨.aq, as, h.aq, (h.onAq n).mpr hp⟩
    | rq => exact ⟨.rq, rs, h.rq, (h.onRq n).mpr hp⟩
    | finished => exact ⟨.finished, (h.responded n).mpr (.inl hp), (h.finished n).mpr hp⟩
  | hand t =>
    have hhand := (h.hands t n).mpr hp
    have hworker := hworker t hp
    rw [carried] at hhand
    split at hhand
    next hc =>
      cases hpc : s.pc t with
      | acceptor p => simp [hpc, isAcceptor] at hworker
      | processor p => exact ⟨.processor t, ⟨p, hpc⟩, hc, hhand⟩
      | responder p => exact ⟨.responder t, ⟨p, hpc⟩, hc, hhand⟩
      | stop p => simp [hpc, carries] at hc
    next => simp at hhand

omit [DecidableEq τ] in
theorem at_unique {p q : Place τ} (hp : At s n p) (hq : At s n q) (h : p.spot = q.spot) : p = q := by
  cases p <;> cases q <;> simp only [Place.spot, Spot.hand.injEq, Spot.shelf.injEq, reduceCtorEq] at h
  all_goals first | rfl | skip
  next t u => rw [h]
  next t u =>
    obtain ⟨⟨p, hp⟩, -⟩ := hp
    obtain ⟨⟨q, hq⟩, -⟩ := hq
    simp [← h, hp] at hq
  next t u =>
    obtain ⟨⟨p, hp⟩, -⟩ := hp
    obtain ⟨⟨q, hq⟩, -⟩ := hq
    simp [← h, hp] at hq
  next t u => rw [h]

end At

structure JobsConserved (s : State τ) : Prop where
  place : ∀ n ∈ s.data.produced, ∃! q, At s n q
  once : s.data.responded.Nodup
  numbers : (s.data.produced.map s.data.job).Nodup

/-- No job is lost, doubled or numbered twice while a signed counter holds the numbers. -/
theorem jobsConserved_of_reaches {pc : τ → Pc} (hpc : ∀ t, Entry (pc t)) {s : State τ}
    (h : Reaches (Machine.step code) MallocSucceeds (startServer pc) s)
    (few : s.data.produced.length < 2 ^ 31) : JobsConserved s := by
  obtain ⟨place, as, rs, hl⟩ := located_of_reaches h
  refine ⟨fun n hn => ?_, hl.once, ?_⟩
  · obtain ⟨q, hq⟩ := hl.exists_at hn
    refine ⟨q, hq, fun p hp => at_unique hp hq ?_⟩
    rw [← hl.spot_of_at hp, ← hl.spot_of_at hq]
  · rw [(numbered_of_reaches hpc h).issued]
    refine List.Nodup.map_on (fun i hi j hj he => ?_) List.nodup_range
    have hi := List.mem_range.mp hi
    have hj := List.mem_range.mp hj
    have hint := congrArg Int32.toInt he
    rw [Int32.toInt_ofNat_of_lt (by omega), Int32.toInt_ofNat_of_lt (by omega)] at hint
    exact Int.ofNat.inj hint

/-- One job has been responded to and another is produced. -/
theorem jobsConserved_of_two_jobs : ∃ s, Reaches (Machine.step code) MallocSucceeds (startServer oneOfEach) s ∧
    (s.data.responded = [0] ∧ s.data.produced = [0, 1]) ∧ JobsConserved s := by
  have run : ∃ s, Reaches (Machine.step code) MallocSucceeds (startServer oneOfEach) s ∧
      s.data.responded = [0] ∧ s.data.produced = [0, 1] :=
    exists_reaches (List.replicate 8 (go 0) ++ List.replicate 11 (go 1) ++ List.replicate 11 (go 2) ++
      List.replicate 8 (go 0)) (by decide)
  obtain ⟨s, hs, hp⟩ := run
  exact ⟨s, hs, hp, jobsConserved_of_reaches (by decide) hs (by simp [hp.2])⟩

end Workcrew

end TcpAndParallel
