import Mathlib.Algebra.Order.BigOperators.Group.Finset
import Mathlib.Data.Fintype.BigOperators
import TcpAndParallel.Headcount
import TcpAndParallel.WorkcrewJobs

namespace TcpAndParallel

namespace Workcrew

variable {τ : Type*} [Fintype τ] [DecidableEq τ]

/-- A processor past the last test before `queue_get`. -/
def getsAq : Pc → Option Nat → Nat
  | .processor .get, _ => 1
  | _, _ => 0

/-- A processor with a job that is still to go to `rq`. -/
def bears : Pc → Option Nat → Nat
  | .processor p, some _ => if p matches .stamp | .unlock | .lockRq | .put then 1 else 0
  | _, _ => 0

/-- A responder past the last test before `queue_get`, or one that a null pointer has stopped there. -/
def getsRq : Pc → Option Nat → Nat
  | .responder .get, _ => 1
  | .responder .stamp, none => 1
  | _, _ => 0

def tally (f : Pc → Option Nat → Nat) (pc : τ → Pc) (d : Crew τ) : Nat := ∑ t, f (pc t) (d.hand t)

/-- With `more` jobs beside those in the lists there is still a processor to come for every
job on `aq`, once nobody else will. -/
def AqServed (more : Nat) (as : List Nat) (pc : τ → Pc) (d : Crew τ) : Prop :=
  as.length + more ≤ tally getsAq pc d

/-- The same for the responders and every job short of them. -/
def RqServed (more : Nat) (as rs : List Nat) (pc : τ → Pc) (d : Crew τ) : Prop :=
  as.length + more + tally bears pc d + rs.length ≤ tally getsRq pc d

/-- A deactivated queue is left to threads that will still serve all its jobs. -/
structure Draining (as rs : List Nat) (pc : τ → Pc) (d : Crew τ) : Prop where
  aq : d.aq.Holds d.next as
  rq : d.rq.Holds d.next rs
  served : d.aqActive = false → AqServed 0 as pc d
  servedRq : d.rqActive = false → RqServed 0 as rs pc d

section Draining

variable {pc : τ → Pc} {d d' : Crew τ} {t : τ} {next : Pc} {as rs : List Nat}

theorem tally_turn (pc : τ → Pc) (next : Pc) (f : Pc → Option Nat → Nat)
    (hh : ∀ u ≠ t, d'.hand u = d.hand u) :
    tally f (Function.update pc t next) d' + f (pc t) (d.hand t) = tally f pc d + f next (d'.hand t) := by
  have h : ∀ u ≠ t, f (Function.update pc t next u) (d'.hand u) = f (pc u) (d.hand u) := by
    intro u hu
    rw [Function.update_of_ne hu, hh u hu]
  have hsum := sum_turn h
  rwa [Function.update_self] at hsum

/-- A step from `p` to `q` with `h` and then `h'` in hand takes no getter away and adds no bearer. -/
structure Steady (p : Pc) (h : Option Nat) (q : Pc) (h' : Option Nat) : Prop where
  getsAq : getsAq p h ≤ getsAq q h'
  bears : bears q h' ≤ bears p h
  getsRq : getsRq p h ≤ getsRq q h'

omit [Fintype τ] in
theorem steady_of_next {p q : Pc} (hn : (code p : Op τ).next? = some q) (h : Option Nat) : Steady p h q h := by
  rcases p with p | p | p | p <;> cases p <;>
    simp [Instr.next?, branch, onNode, readNode] at hn <;> subst hn <;> cases h <;>
    constructor <;> simp [getsAq, bears, getsRq]

omit [Fintype τ] [DecidableEq τ] in
theorem steady_of_test {p q : Pc} (ht : Test d p q) (h : Option Nat) : Steady p h q h := by
  cases ht <;> cases h <;> constructor <;> simp [getsAq, bears, getsRq]

theorem steady_of_log {p q : Pc} (hl : Log p q) (h : Option Nat) : Steady p h q h := by
  cases hl <;> cases h <;> constructor <;> simp [getsAq, bears, getsRq]

structure SameQueues (d d' : Crew τ) : Prop where
  aq : d'.aq = d.aq
  rq : d'.rq = d.rq
  next : d'.next = d.next
  aqActive : d'.aqActive = d.aqActive
  rqActive : d'.rqActive = d.rqActive

theorem draining_of_turn {as' rs' : List Nat} {x : Option Nat} (hh : ∀ u ≠ t, d'.hand u = d.hand u)
    (hx : d'.hand t = x) (haq : d'.aq.Holds d'.next as') (hrq : d'.rq.Holds d'.next rs')
    (served : d'.aqActive = false →
      as'.length + getsAq (pc t) (d.hand t) ≤ tally getsAq pc d + getsAq next x)
    (servedRq : d'.rqActive = false →
      as'.length + (tally bears pc d + bears next x) + rs'.length + getsRq (pc t) (d.hand t) ≤
        tally getsRq pc d + getsRq next x + bears (pc t) (d.hand t)) :
    Draining as' rs' (Function.update pc t next) d' := by
  subst hx
  have hgets := tally_turn pc next getsAq hh
  have hbears := tally_turn pc next bears hh
  have hgetsRq := tally_turn pc next getsRq hh
  refine ⟨haq, hrq, fun hoff => ?_, fun hoff => ?_⟩
  · have := served hoff
    unfold AqServed
    omega
  · have := servedRq hoff
    unfold RqServed
    omega

theorem Draining.turn (h : Draining as rs pc d) (hd : SameQueues d d')
    (hh : ∀ u ≠ t, d'.hand u = d.hand u) (hs : Steady (pc t) (d.hand t) next (d'.hand t)) :
    Draining as rs (Function.update pc t next) d' := by
  obtain ⟨h₁, h₂, h₃⟩ := hs
  refine draining_of_turn hh rfl (hd.aq ▸ hd.next ▸ h.aq) (hd.rq ▸ hd.next ▸ h.rq)
    (fun hoff => ?_) fun hoff => ?_
  · have hserved := h.served (hd.aqActive ▸ hoff)
    unfold AqServed at hserved
    omega
  · have hserved := h.servedRq (hd.rqActive ▸ hoff)
    unfold RqServed at hserved
    omega

variable {n : Nat}

theorem Draining.putAq (h : Draining as rs pc d) (hp : pc t = .acceptor .put) (hnew : n ∉ as ∧ n ∉ rs)
    (room : d.aqActive = false → AqServed 1 as pc d) (roomRq : d.rqActive = false → RqServed 1 as rs pc d) :
    Draining (n :: as) rs (Function.update pc t (.acceptor .unlock))
      { d with next := (queuePut d.next d.aq n).1, aq := (queuePut d.next d.aq n).2,
               produced := d.produced ++ [n] } := by
  refine draining_of_turn (d := d) (fun _ _ => rfl) rfl (queuePut_holds h.aq hnew.1) (queuePut_frame h.rq hnew.2)
    (fun hoff => ?_) fun hoff => ?_
  · have hroom := room hoff
    simp only [AqServed, hp, getsAq, List.length_cons] at hroom ⊢
    omega
  · have hroom := roomRq hoff
    simp only [RqServed, hp, bears, getsRq, List.length_cons] at hroom ⊢
    omega

theorem Draining.putRq (h : Draining as rs pc d) (hp : pc t = .processor .put) (hn : d.hand t = some n)
    (hnew : n ∉ as ∧ n ∉ rs) :
    Draining as (n :: rs) (Function.update pc t (.processor .unlockRq))
      { d with next := (queuePut d.next d.rq n).1, rq := (queuePut d.next d.rq n).2 } := by
  refine draining_of_turn (d := d) (fun _ _ => rfl) rfl (queuePut_frame h.aq hnew.1) (queuePut_holds h.rq hnew.2)
    (fun hoff => ?_) fun hoff => ?_
  · have hserved := h.served hoff
    simp only [AqServed, hp, getsAq] at hserved ⊢
    omega
  · have hserved := h.servedRq hoff
    simp [RqServed, hp, hn, bears, getsRq] at hserved ⊢
    omega

theorem Draining.getAq (h : Draining as rs pc d) (hp : pc t = .processor .get) :
    Draining as.tail rs (Function.update pc t (.processor .stamp))
      { d with hand := Function.update d.hand t (queueGet d.next d.aq).1, aq := (queueGet d.next d.aq).2 } := by
  obtain ⟨hgot, hrest⟩ := queueGet_holds h.aq
  have hplus : getsAq (pc t) (d.hand t) ≤ tally getsAq pc d :=
    Finset.single_le_sum (f := fun u => getsAq (pc u) (d.hand u)) (fun _ _ => Nat.zero_le _)
      (Finset.mem_univ t)
  have hhand : Function.update d.hand t (queueGet d.next d.aq).1 t = as.head? := by
    rw [Function.update_self, hgot]
  refine draining_of_turn (d := d) (fun u hu => Function.update_of_ne hu ..) hhand hrest h.rq
    (fun hoff => ?_) fun hoff => ?_
  · have hserved := h.served hoff
    simp only [AqServed, hp, getsAq, List.length_tail] at hserved hplus ⊢
    omega
  · have hserved := h.servedRq hoff
    cases as with
    | nil =>
      simp [RqServed, hp, bears, getsRq] at hserved ⊢
      omega
    | cons n as =>
      simp [RqServed, hp, bears, getsRq] at hserved ⊢
      omega

theorem Draining.getRq (h : Draining as rs pc d) (hp : pc t = .responder .get) :
    Draining as rs.tail (Function.update pc t (.responder .stamp))
      { d with hand := Function.update d.hand t (queueGet d.next d.rq).1, rq := (queueGet d.next d.rq).2 } := by
  obtain ⟨hgot, hrest⟩ := queueGet_holds h.rq
  have hhand : Function.update d.hand t (queueGet d.next d.rq).1 t = rs.head? := by
    rw [Function.update_self, hgot]
  refine draining_of_turn (d := d) (fun u hu => Function.update_of_ne hu ..) hhand h.aq hrest
    (fun hoff => ?_) fun hoff => ?_
  · have hserved := h.served hoff
    simp only [AqServed, hp, getsAq] at hserved ⊢
    omega
  · have hserved := h.servedRq hoff
    cases rs with
    | nil =>
      simp [RqServed, hp, bears, getsRq] at hserved ⊢
      omega
    | cons n rs =>
      simp [RqServed, hp, bears, getsRq] at hserved ⊢
      omega

theorem Draining.clear (h : Draining as rs pc d) (hp : pc t = .stop .clear) (room : AqServed 0 as pc d) :
    Draining as rs (Function.update pc t (.stop .unlock)) { d with aqActive := false } := by
  refine draining_of_turn (d := d) (fun _ _ => rfl) rfl h.aq h.rq (fun _ => ?_) fun hoff => ?_
  · simpa [AqServed, hp, getsAq] using room
  · simpa [RqServed, hp, bears, getsRq] using h.servedRq hoff

theorem Draining.clearRq (h : Draining as rs pc d) (hp : pc t = .stop .clearRq) (room : RqServed 0 as rs pc d) :
    Draining as rs (Function.update pc t (.stop .unlockRq)) { d with rqActive := false } := by
  refine draining_of_turn (d := d) (fun _ _ => rfl) rfl h.aq h.rq (fun hoff => ?_) fun _ => ?_
  · simpa [AqServed, hp, getsAq] using h.served hoff
  · simpa [RqServed, hp, bears, getsRq] using room

end Draining

/-- A queue is deactivated only when threads that will still serve its jobs are on their way, and
nothing is put on a deactivated queue beyond that. -/
def DrainsFirst (s : State τ) : Step τ → Prop
  | .run t _ _ => ∀ as rs, s.data.aq.Holds s.data.next as → s.data.rq.Holds s.data.next rs →
      (s.pc t = .stop .clear → AqServed 0 as s.pc s.data) ∧
      (s.pc t = .stop .clearRq → RqServed 0 as rs s.pc s.data) ∧
      (s.pc t = .acceptor .put → (s.data.aqActive = false → AqServed 1 as s.pc s.data) ∧
        (s.data.rqActive = false → RqServed 1 as rs s.pc s.data))
  | .spurious _ _ => True

theorem draining_step {s s' : State τ} {e : Step τ} (h : s.step code e = some s') (hC : DrainsFirst s e)
    {place : Nat → Spot Shelf τ} {as rs : List Nat} (located : Located place as rs s.pc s.data)
    (hs : Draining as rs s.pc s.data) : ∃ as' rs', Draining as' rs' s'.pc s'.data := by
  cases e with
  | spurious c t =>
    obtain ⟨-, rfl⟩ := step_spurious h
    exact ⟨as, rs, hs⟩
  | run t success woken =>
    obtain ⟨next, hpc, ⟨hn, hd⟩ | he⟩ := step_effect h
    · rw [hpc, hd]
      exact ⟨as, rs, hs.turn ⟨rfl, rfl, rfl, rfl, rfl⟩ (fun _ _ => rfl) (steady_of_next hn _)⟩
    · rw [hpc]
      obtain ⟨hclear, hclearRq, hput⟩ := hC as rs located.aq located.rq
      generalize hp : s.pc t = p at he
      generalize s'.data = d' at he
      cases he with
      | test ht =>
        refine ⟨as, rs, hs.turn ⟨rfl, rfl, rfl, rfl, rfl⟩ (fun _ _ => rfl) ?_⟩
        rw [hp]
        exact steady_of_test ht _
      | log hl =>
        refine ⟨as, rs, hs.turn ⟨rfl, rfl, rfl, rfl, rfl⟩ (fun _ _ => rfl) ?_⟩
        rw [hp]
        exact steady_of_log hl _
      | malloc | ouch =>
        refine ⟨as, rs, hs.turn ⟨rfl, rfl, rfl, rfl, rfl⟩ (fun u hu => Function.update_of_ne hu ..) ?_⟩
        rw [hp]
        constructor <;> simp [getsAq, bears, getsRq]
      | number hn | send hn | free hn =>
        refine ⟨as, rs, hs.turn ⟨rfl, rfl, rfl, rfl, rfl⟩ (fun _ _ => rfl) ?_⟩
        rw [hp]
        constructor <;> simp [getsAq, bears, getsRq]
      | stamp hn _ _ _ hpq =>
        refine ⟨as, rs, hs.turn ⟨rfl, rfl, rfl, rfl, rfl⟩ (fun _ _ => rfl) ?_⟩
        rw [hp, hn]
        rcases hpq with ⟨rfl, rfl⟩ | ⟨rfl, rfl⟩ | ⟨rfl, rfl⟩ <;> constructor <;>
          simp [getsAq, bears, getsRq]
      | @putAq n hn =>
        have hplace := located.carried_at (by rw [hp]; rfl) hn
        have hnew : n ∉ as ∧ n ∉ rs :=
          ⟨fun hm => located.onAq.ne_hand hm hplace, fun hm => located.onRq.ne_hand hm hplace⟩
        exact ⟨_, rs, hs.putAq hp hnew (hput hp).1 (hput hp).2⟩
      | @putRq n hn =>
        have hplace := located.carried_at (by rw [hp]; rfl) hn
        have hnew : n ∉ as ∧ n ∉ rs :=
          ⟨fun hm => located.onAq.ne_hand hm hplace, fun hm => located.onRq.ne_hand hm hplace⟩
        exact ⟨as, _, hs.putRq hp hn hnew⟩
      | getAq => exact ⟨_, rs, hs.getAq hp⟩
      | getRq => exact ⟨as, _, hs.getRq hp⟩
      | clear => exact ⟨as, rs, hs.clear hp (hclear hp)⟩
      | clearRq => exact ⟨as, rs, hs.clearRq hp (hclearRq hp)⟩

theorem draining_of_reaches {pc : τ → Pc} {s : State τ}
    (h : Reaches (Machine.step code) DrainsFirst (startServer pc) s) :
    ∃ as rs, Draining as rs s.pc s.data := by
  induction h with
  | start => exact ⟨[], [], queueInit_holds _, queueInit_holds _, nofun, nofun⟩
  | next hr hc he ih =>
    obtain ⟨as, rs, hs⟩ := ih
    obtain ⟨place, as', rs', hl⟩ := located_of_reaches hr
    obtain rfl := hl.aq.unique hs.aq
    obtain rfl := hl.rq.unique hs.rq
    exact draining_step he hc hl hs

def left : Pc → Bool
  | .acceptor p => (p matches .leave | .done)
  | .processor p => (p matches .leave | .leaveRq | .done)
  | .responder p => (p matches .leave | .done)
  | .stop _ => true

/-- Once both queues are deactivated and all workers have left their loops, every job that was
produced has been responded to. -/
def DrainedWhenLeft (s : State τ) : Prop :=
  s.data.aqActive = false → s.data.rqActive = false → (∀ t, left (s.pc t) = true) →
    s.data.aq.head = none ∧ s.data.rq.head = none ∧ ∀ n ∈ s.data.produced, n ∈ s.data.responded

theorem counts_nothing_of_left {p : Pc} (h : left p = true) (x : Option Nat) :
    getsAq p x = 0 ∧ getsRq p x = 0 ∧ carries p = false := by
  rcases p with p | p | p | p <;> cases p <;> cases x <;> simp [left, getsAq, getsRq, carries] at h ⊢

theorem drained_of_drainsFirst {pc : τ → Pc} {s : State τ}
    (h : Reaches (Machine.step code) DrainsFirst (startServer pc) s) : DrainedWhenLeft s := by
  intro hoff hoffRq hleft
  obtain ⟨place, as, rs, hl⟩ := located_of_reaches h
  obtain ⟨as', rs', hs⟩ := draining_of_reaches h
  obtain rfl := hl.aq.unique hs.aq
  obtain rfl := hl.rq.unique hs.rq
  have none := fun t => counts_nothing_of_left (hleft t) (s.data.hand t)
  have hserved := hs.served hoff
  have hservedRq := hs.servedRq hoffRq
  simp only [AqServed, RqServed, tally, (none _).1, (none _).2.1, Finset.sum_const_zero] at hserved hservedRq
  obtain rfl : as = [] := List.length_eq_zero_iff.mp (by omega)
  obtain rfl : rs = [] := List.length_eq_zero_iff.mp (by omega)
  refine ⟨hl.aq.head_eq, hl.rq.head_eq, fun n hn => ?_⟩
  obtain ⟨q, hq⟩ := hl.exists_at hn
  cases q with
  | aq => simpa [Place.spot] using (hl.onAq n).mpr (hl.spot_of_at hq)
  | rq => simpa [Place.spot] using (hl.onRq n).mpr (hl.spot_of_at hq)
  | processor t | responder t =>
    obtain ⟨-, hc, -⟩ := hq
    simp [(none t).2.2] at hc
  | finished => exact hq.1

/-- The queues are deactivated when all jobs have passed, and nothing is put afterwards. -/
def IdleWhenStopped (s : State τ) : Step τ → Prop
  | .run t _ _ => (s.pc t = .stop .clear → s.data.aq.head = none) ∧
      (s.pc t = .stop .clearRq → s.data.aq.head = none ∧ s.data.rq.head = none ∧
        ∀ u, bears (s.pc u) (s.data.hand u) = 0) ∧
      (s.pc t = .acceptor .put → s.data.aqActive = true ∧ s.data.rqActive = true)
  | .spurious _ _ => True

instance (s : State τ) (e : Step τ) : Decidable (IdleWhenStopped s e) :=
  match e with
  | .run _ _ _ => inferInstanceAs (Decidable (_ ∧ _))
  | .spurious _ _ => inferInstanceAs (Decidable True)

omit [DecidableEq τ] in
theorem drainsFirst_of_idle {s : State τ} {e : Step τ} (h : IdleWhenStopped s e) : DrainsFirst s e := by
  cases e with
  | spurious c t => trivial
  | run t success woken =>
    intro as rs haq hrq
    obtain ⟨hclear, hclearRq, hput⟩ := h
    refine ⟨fun hp => ?_, fun hp => ?_, fun hp => ?_⟩
    · obtain rfl := chain_none_iff.mp (hclear hp ▸ haq : Chain s.data.next none as)
      exact Nat.zero_le _
    · obtain ⟨ha, hr, hbears⟩ := hclearRq hp
      obtain rfl := chain_none_iff.mp (ha ▸ haq : Chain s.data.next none as)
      obtain rfl := chain_none_iff.mp (hr ▸ hrq : Chain s.data.next none rs)
      simp [RqServed, tally, hbears]
    · simp [(hput hp).1, (hput hp).2]

/-- A job is responded to before the server is stopped. -/
theorem drained_when_idle : ∃ s, Reaches (Machine.step code) DrainsFirst (startServer oneOfEach) s ∧
    ((s.data.aqActive = false ∧ s.data.rqActive = false ∧ ∀ t, left (s.pc t) = true) ∧
      s.data.produced = [0]) ∧ DrainedWhenLeft s := by
  have run : ∃ s, Reaches (Machine.step code) IdleWhenStopped (startServer oneOfEach) s ∧
      (s.data.aqActive = false ∧ s.data.rqActive = false ∧ ∀ t, left (s.pc t) = true) ∧
        s.data.produced = [0] :=
    exists_reaches (List.replicate 10 (go 0) ++ List.replicate 14 (go 1) ++ List.replicate 12 (go 2) ++
      List.replicate 8 (go 3) ++ List.replicate 2 (go 0) ++ [go 0] ++ List.replicate 2 (go 1) ++
      List.replicate 2 (go 2)) (by decide)
  obtain ⟨s, hs, hp⟩ := run
  have hs := hs.mono fun s e => drainsFirst_of_idle
  exact ⟨s, hs, hp, drained_of_drainsFirst hs⟩

/-- The server is stopped while a job waits on `aq`, and the job is dropped. -/
theorem stop_drops_job : ∃ s, Reaches (Machine.step code) MallocSucceeds (startServer oneOfEach) s ∧
    ¬DrainedWhenLeft s := by
  have run : ∃ s, Reaches (Machine.step code) MallocSucceeds (startServer oneOfEach) s ∧
      (s.data.aqActive = false ∧ s.data.rqActive = false ∧ ∀ t, left (s.pc t) = true) ∧
        s.data.produced = [0] ∧ s.data.responded = [] :=
    exists_reaches (List.replicate 10 (go 0) ++ List.replicate 8 (go 3) ++ List.replicate 3 (go 0) ++
      List.replicate 2 (go 1) ++ [go 1] ++ List.replicate 2 (go 2)) (by decide)
  obtain ⟨s, hs, ⟨hoff, hoffRq, hleft⟩, hprod, hresp⟩ := run
  refine ⟨s, hs, fun h => ?_⟩
  obtain ⟨-, -, hall⟩ := h hoff hoffRq hleft
  simpa [hresp] using hall 0 (by simp [hprod])

end Workcrew

end TcpAndParallel
