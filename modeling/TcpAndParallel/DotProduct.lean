import Mathlib.Algebra.BigOperators.Fin
import Mathlib.Algebra.BigOperators.Intervals
import Mathlib.Algebra.Order.BigOperators.Group.Finset
import Mathlib.Data.Fintype.BigOperators
import Mathlib.Data.Fintype.Option
import TcpAndParallel.Monitors

namespace TcpAndParallel

namespace DotProduct

inductive DotPc
  | born | loop | lock | read | write | unlock | exit | gone
  deriving DecidableEq

inductive MainPc
  | create | join | print | finished
  deriving DecidableEq

inductive Pc
  | dotprod (p : DotPc)
  | main (p : MainPc)
  deriving DecidableEq

/-- `dotstr.sum`, and the local variables of the threads; `seen` is the sum that an addition to it has
read, and `ended` tells `pthread_join` that a thread has left `dotprod`. -/
structure Shared (n : Nat) (α : Type*) where
  sum : α
  printed : Option α
  created : Nat
  joined : Nat
  ended : Fin n → Bool
  i : Fin n → Nat
  mysum : Fin n → α
  seen : Fin n → α

section Model

variable {α : Type*} [AddCommMonoid α] [Mul α] (n len : Nat) (x y : Nat → α)

/-- `main` is the thread `none`, and `some k` the thread that it creates with the argument `k`. -/
abbrev Op (n : Nat) (α : Type*) := Instr (Option (Fin n)) Unit Empty (Shared n α) Pc Unit

/-- A step of the thread with the argument `k`. -/
def own {n : Nat} (f : Fin n → Shared n α → Option (Shared n α × DotPc)) : Op n α :=
  .act fun t _ d => t.bind fun k => (f k d).map fun (d', p) => (d', .dotprod p)

def dotprod : DotPc → Op n α
  | .born => own fun k d =>
    if k.val < d.created then some ({ d with
        i := Function.update d.i k (k * len)
        mysum := Function.update d.mysum k 0 }, .loop)
    else none
  | .loop => own fun k d =>
    if d.i k < k * len + len then some ({ d with
        mysum := Function.update d.mysum k (d.mysum k + x (d.i k) * y (d.i k))
        i := Function.update d.i k (d.i k + 1) }, .loop)
    else some (d, .lock)
  | .lock => .lock () (.dotprod .read)
  | .read => own fun k d => some ({ d with seen := Function.update d.seen k d.sum }, .write)
  | .write => own fun k d => some ({ d with sum := d.seen k + d.mysum k }, .unlock)
  | .unlock => .unlock () (.dotprod .exit)
  | .exit => own fun k d => some ({ d with ended := Function.update d.ended k true }, .gone)
  | .gone => .halt

def main : MainPc → Op n α
  | .create => .act fun _ _ d =>
    if d.created < n then some ({ d with created := d.created + 1 }, .main .create)
    else some (d, .main .join)
  | .join => .act fun _ _ d =>
    if h : d.joined < n then
      if d.ended ⟨d.joined, h⟩ then some ({ d with joined := d.joined + 1 }, .main .join) else none
    else some (d, .main .print)
  | .print => .act fun _ _ d => some ({ d with printed := some d.sum }, .main .finished)
  | .finished => .halt

def code : Pc → Op n α
  | .dotprod p => dotprod n len x y p
  | .main p => main n p

abbrev State (n : Nat) (α : Type*) := Machine (Option (Fin n)) Unit Empty (Shared n α) Pc

abbrev Step (n : Nat) := Event (Option (Fin n)) Empty Unit

def entry : Option (Fin n) → Pc
  | none => .main .create
  | some _ => .dotprod .born

def init : State n α := .start (entry n) ⟨0, none, 0, 0, fun _ => false, fun _ => 0, fun _ => 0, fun _ => 0⟩

def part (lo hi : Nat) : α := ∑ j ∈ Finset.Ico lo hi, x j * y j

end Model

section Threads

variable {α : Type*} [AddCommMonoid α] [Mul α] {n len : Nat} {x y : Nat → α} {s s' : State n α}

theorem sum_parts (n len : Nat) (x y : Nat → α) :
    ∑ k : Fin n, part x y (k * len) (k * len + len) = ∑ j ∈ Finset.range (n * len), x j * y j := by
  rw [← Finset.sum_range fun k => part x y (k * len) (k * len + len)]
  induction n with
  | zero => simp
  | succ n ih =>
    have hsplit : ∑ j ∈ Finset.range ((n + 1) * len), x j * y j =
        ∑ j ∈ Finset.range (n * len), x j * y j + part x y (n * len) (n * len + len) := by
      rw [part, Nat.add_mul, Nat.one_mul, Finset.range_eq_Ico, Finset.range_eq_Ico,
        Finset.sum_Ico_consecutive _ (Nat.zero_le _) (Nat.le_add_right _ _)]
    rw [Finset.sum_range_succ, ih, hsplit]

def critical : Pc → Bool
  | .dotprod p => (p matches .read | .write | .unlock)
  | .main _ => false

/-- All that a step on the data does, with the points before and after it. -/
inductive Effect (len : Nat) (x y : Nat → α) (d : Shared n α) :
    Option (Fin n) → Pc → Pc → Shared n α → Prop
  | begin (k : Fin n) (room : k.val < d.created) : Effect len x y d (some k) (.dotprod .born) (.dotprod .loop)
      { d with i := Function.update d.i k (k * len), mysum := Function.update d.mysum k 0 }
  | pass (k : Fin n) (more : d.i k < k * len + len) :
      Effect len x y d (some k) (.dotprod .loop) (.dotprod .loop) { d with
        mysum := Function.update d.mysum k (d.mysum k + x (d.i k) * y (d.i k))
        i := Function.update d.i k (d.i k + 1) }
  | leave (k : Fin n) (done : ¬d.i k < k * len + len) :
      Effect len x y d (some k) (.dotprod .loop) (.dotprod .lock) d
  | read (k : Fin n) : Effect len x y d (some k) (.dotprod .read) (.dotprod .write)
      { d with seen := Function.update d.seen k d.sum }
  | write (k : Fin n) : Effect len x y d (some k) (.dotprod .write) (.dotprod .unlock)
      { d with sum := d.seen k + d.mysum k }
  | exit (k : Fin n) : Effect len x y d (some k) (.dotprod .exit) (.dotprod .gone)
      { d with ended := Function.update d.ended k true }
  | create {t : Option (Fin n)} (more : d.created < n) :
      Effect len x y d t (.main .create) (.main .create) { d with created := d.created + 1 }
  | created {t : Option (Fin n)} (done : ¬d.created < n) : Effect len x y d t (.main .create) (.main .join) d
  | join {t : Option (Fin n)} (more : d.joined < n) (ended : d.ended ⟨d.joined, more⟩ = true) :
      Effect len x y d t (.main .join) (.main .join) { d with joined := d.joined + 1 }
  | joined {t : Option (Fin n)} (done : ¬d.joined < n) : Effect len x y d t (.main .join) (.main .print) d
  | print {t : Option (Fin n)} :
      Effect len x y d t (.main .print) (.main .finished) { d with printed := some d.sum }

omit [AddCommMonoid α] [Mul α] in
theorem own_eq {f g} {t : Option (Fin n)} {d d' : Shared n α} {q : Pc} (hf : (own g : Op n α) = .act f)
    (hd : f t () d = some (d', q)) : ∃ k p, t = some k ∧ g k d = some (d', p) ∧ q = .dotprod p := by
  obtain rfl : (fun t _ d => t.bind fun k => (g k d).map fun (d', p) => (d', .dotprod p)) = f := Instr.act.inj hf
  obtain ⟨k, rfl, hk⟩ := Option.bind_eq_some_iff.mp hd
  obtain ⟨⟨e, p⟩, hg, he⟩ := Option.map_eq_some_iff.mp hk
  obtain ⟨rfl, rfl⟩ := Prod.mk.inj he
  exact ⟨k, p, rfl, hg, rfl⟩

theorem effect_of_act {p q : Pc} {f} {t : Option (Fin n)} {d d' : Shared n α}
    (hf : code n len x y p = .act f) (hd : f t () d = some (d', q)) : Effect len x y d t p q d' := by
  rcases p with p | p <;> cases p
  case dotprod.born =>
    obtain ⟨k, p, rfl, hg, rfl⟩ := own_eq hf hd
    split at hg
    next room =>
      obtain ⟨rfl, rfl⟩ := Prod.mk.inj (Option.some.inj hg)
      exact .begin k room
    next => cases hg
  case dotprod.loop =>
    obtain ⟨k, p, rfl, hg, rfl⟩ := own_eq hf hd
    split at hg
    next more =>
      obtain ⟨rfl, rfl⟩ := Prod.mk.inj (Option.some.inj hg)
      exact .pass k more
    next done =>
      obtain ⟨rfl, rfl⟩ := Prod.mk.inj (Option.some.inj hg)
      exact .leave k done
  case dotprod.read =>
    obtain ⟨k, p, rfl, hg, rfl⟩ := own_eq hf hd
    obtain ⟨rfl, rfl⟩ := Prod.mk.inj (Option.some.inj hg)
    exact .read k
  case dotprod.write =>
    obtain ⟨k, p, rfl, hg, rfl⟩ := own_eq hf hd
    obtain ⟨rfl, rfl⟩ := Prod.mk.inj (Option.some.inj hg)
    exact .write k
  case dotprod.exit =>
    obtain ⟨k, p, rfl, hg, rfl⟩ := own_eq hf hd
    obtain ⟨rfl, rfl⟩ := Prod.mk.inj (Option.some.inj hg)
    exact .exit k
  case main.create =>
    obtain rfl := Instr.act.inj hf
    dsimp only at hd
    split at hd
    next more =>
      obtain ⟨rfl, rfl⟩ := Prod.mk.inj (Option.some.inj hd)
      exact .create more
    next done =>
      obtain ⟨rfl, rfl⟩ := Prod.mk.inj (Option.some.inj hd)
      exact .created done
  case main.join =>
    obtain rfl := Instr.act.inj hf
    dsimp only at hd
    split at hd
    next more =>
      split at hd
      next ended =>
        obtain ⟨rfl, rfl⟩ := Prod.mk.inj (Option.some.inj hd)
        exact .join more ended
      next => cases hd
    next done =>
      obtain ⟨rfl, rfl⟩ := Prod.mk.inj (Option.some.inj hd)
      exact .joined done
  case main.print =>
    obtain rfl := Instr.act.inj hf
    obtain ⟨rfl, rfl⟩ := Prod.mk.inj (Option.some.inj hd)
    exact .print
  all_goals cases hf

theorem sync_eq {p q : Pc} (h : (code n len x y p).next? = some q) :
    p = .dotprod .lock ∧ q = .dotprod .read ∨ p = .dotprod .unlock ∧ q = .dotprod .exit := by
  rcases p with p | p <;> cases p <;> simp [code, dotprod, main, own, Instr.next?] at h <;> simp [h]

theorem guards : Guards (code n len x y) (fun _ _ => True) () critical (fun _ => True) where
  sound p _ := by
    rcases p with p | p <;> cases p <;> simp [code, dotprod, main, own, critical, Instr.hold]
  sync s t choice woken next _ _ hn := by
    rcases sync_eq hn with ⟨hp, rfl⟩ | ⟨hp, rfl⟩ <;> rw [hp] <;> simp [code, dotprod, critical, Instr.hold]
  act s t choice woken f d next _ _ hf hd := by
    have he := effect_of_act hf hd
    generalize s.pc t = p at he
    cases he <;> simp [critical]

def share (len : Nat) (x y : Nat → α) (k : Fin n) : α := part x y (k * len) (k * len + len)

/-- What thread `k` has worked out at a point. -/
def Worked (len : Nat) (x y : Nat → α) (d : Shared n α) (k : Fin n) : Pc → Prop
  | .dotprod .loop => k * len ≤ d.i k ∧ d.i k ≤ k * len + len ∧ d.mysum k = part x y (k * len) (d.i k)
  | .dotprod .lock | .dotprod .read => d.mysum k = share len x y k
  | .dotprod .write => d.mysum k = share len x y k ∧ d.seen k = d.sum
  | _ => True

theorem Worked.frame {d d' : Shared n α} {k : Fin n} {p : Pc} (h : Worked len x y d k p)
    (hi : d'.i k = d.i k) (hmysum : d'.mysum k = d.mysum k)
    (hsum : p = .dotprod .write → d'.seen k = d.seen k ∧ d'.sum = d.sum) : Worked len x y d' k p := by
  rcases p with p | p
  · cases p with
    | born | unlock | exit | gone => trivial
    | loop =>
      simp only [Worked, hi, hmysum] at h ⊢
      exact h
    | lock | read =>
      simp only [Worked, hmysum] at h ⊢
      exact h
    | write =>
      obtain ⟨hseen, hs⟩ := hsum rfl
      simp only [Worked, hmysum, hseen, hs] at h ⊢
      exact h
  · trivial

def deposited : Pc → Bool
  | .dotprod p => (p matches .unlock | .exit | .gone)
  | .main _ => false

def paid (len : Nat) (x y : Nat → α) (k : Fin n) (p : Pc) : α := if deposited p then share len x y k else 0

structure Inv (len : Nat) (x y : Nat → α) (s : State n α) : Prop where
  main : ∃ p, s.pc none = .main p
  own : ∀ k, ∃ p, s.pc (some k) = .dotprod p
  worked : ∀ k, Worked len x y s.data k (s.pc (some k))
  sum : s.data.sum = ∑ k, paid len x y k (s.pc (some k))
  ended : ∀ k, s.data.ended k = true ↔ s.pc (some k) = .dotprod .gone
  created : s.data.created ≤ n ∧ (s.pc none ≠ .main .create → s.data.created = n)
  joined : ∀ k : Fin n, k.val < s.data.joined → s.data.ended k = true
  all : s.pc none = .main .print ∨ s.pc none = .main .finished → ∀ k, s.data.ended k = true
  printed : s.data.printed = if s.pc none = .main .finished then some (∑ k : Fin n, share len x y k) else none

theorem init_inv (n len : Nat) (x y : Nat → α) : Inv len x y (init n) where
  main := ⟨.create, rfl⟩
  own _ := ⟨.born, rfl⟩
  worked _ := trivial
  sum := by simp [init, Machine.start, paid, entry, deposited]
  ended _ := by simp [init, Machine.start, entry]
  created := ⟨Nat.zero_le n, fun h => absurd rfl h⟩
  joined _ h := absurd h (Nat.not_lt_zero _)
  all h := by simp [init, Machine.start, entry] at h
  printed := rfl

theorem Inv.thread (h : Inv len x y s) {k : Fin n} {p q : DotPc} (hp : s.pc (some k) = .dotprod p)
    (hpc : s'.pc = Function.update s.pc (some k) (.dotprod q)) (live : p ≠ .gone)
    (worked : Worked len x y s'.data k (.dotprod q))
    (others : ∀ j ≠ k, Worked len x y s.data j (s.pc (some j)) → Worked len x y s'.data j (s.pc (some j)))
    (sum : deposited (.dotprod q) = deposited (.dotprod p) ∧ s'.data.sum = s.data.sum ∨
      deposited (.dotprod p) = false ∧ deposited (.dotprod q) = true ∧
        s'.data.sum = s.data.sum + share len x y k)
    (ended : q ≠ .gone ∧ s'.data.ended = s.data.ended ∨
      q = .gone ∧ s'.data.ended = Function.update s.data.ended k true)
    (main : s'.data.created = s.data.created ∧ s'.data.joined = s.data.joined ∧
      s'.data.printed = s.data.printed) : Inv len x y s' := by
  have hnone : s'.pc none = s.pc none := by rw [hpc, Function.update_of_ne (by simp)]
  have hself : s'.pc (some k) = .dotprod q := by rw [hpc, Function.update_self]
  have hother : ∀ j ≠ k, s'.pc (some j) = s.pc (some j) := fun j hj => by
    rw [hpc, Function.update_of_ne (by simpa using hj)]
  have hended : ∀ j, s.data.ended j = true → s'.data.ended j = true := fun j hj => by
    rcases ended with ⟨-, he⟩ | ⟨-, he⟩ <;> rw [he]
    · exact hj
    · by_cases hjk : j = k
      · rw [hjk, Function.update_self]
      · rwa [Function.update_of_ne hjk]
  obtain ⟨hcreated, hjoined, hprinted⟩ := main
  refine ⟨hnone ▸ h.main, fun j => ?_, fun j => ?_, ?_, fun j => ?_, ?_, fun j hj => ?_, fun hall j => ?_, ?_⟩
  · by_cases hj : j = k
    · exact ⟨q, hj ▸ hself⟩
    · exact hother j hj ▸ h.own j
  · by_cases hj : j = k
    · rw [hj, hself]
      exact worked
    · rw [hother j hj]
      exact others j hj (h.worked j)
  · have hrest : ∑ j ∈ Finset.univ.erase k, paid len x y j (s'.pc (some j)) =
        ∑ j ∈ Finset.univ.erase k, paid len x y j (s.pc (some j)) :=
      Finset.sum_congr rfl fun j hj => by rw [hother j (Finset.ne_of_mem_erase hj)]
    have hsum := h.sum
    rw [← Finset.add_sum_erase _ _ (Finset.mem_univ k), hp] at hsum
    rw [← Finset.add_sum_erase _ _ (Finset.mem_univ k), hself, hrest]
    rcases sum with ⟨same, hs⟩ | ⟨before, after, hs⟩
    · rw [hs, hsum, paid, paid, same]
    · rw [hs, hsum, paid, paid, before, after, if_neg Bool.false_ne_true, if_pos rfl, zero_add, add_comm]
  · have hk := h.ended k
    rcases ended with ⟨hq, he⟩ | ⟨hq, he⟩ <;> rw [he] <;> by_cases hj : j = k
    · rw [hj, hself, hk, hp]
      simp [live, hq]
    · rw [hother j hj]
      exact h.ended j
    · rw [hj, hself, hq]
      simp
    · rw [hother j hj, Function.update_of_ne hj]
      exact h.ended j
  · rw [hcreated, hnone]
    exact h.created
  · exact hended j (h.joined j (hjoined ▸ hj))
  · exact hended j (h.all (hnone ▸ hall) j)
  · rw [hprinted, hnone]
    exact h.printed

theorem Inv.caller (h : Inv len x y s) {q : MainPc} (hpc : s'.pc = Function.update s.pc none (.main q))
    (threads : s'.data.sum = s.data.sum ∧ s'.data.ended = s.data.ended ∧ s'.data.i = s.data.i ∧
      s'.data.mysum = s.data.mysum ∧ s'.data.seen = s.data.seen)
    (created : s'.data.created ≤ n ∧ (q ≠ .create → s'.data.created = n))
    (joined : ∀ k : Fin n, k.val < s'.data.joined → s.data.ended k = true)
    (all : q = .print ∨ q = .finished → ∀ k, s.data.ended k = true)
    (printed : s'.data.printed = if q = .finished then some (∑ k : Fin n, share len x y k) else none) :
    Inv len x y s' := by
  have hnone : s'.pc none = .main q := by rw [hpc, Function.update_self]
  have hother : ∀ k, s'.pc (some k) = s.pc (some k) := fun k => by
    rw [hpc, Function.update_of_ne (by simp)]
  obtain ⟨hsum, hended, hi, hmysum, hseen⟩ := threads
  refine ⟨⟨q, hnone⟩, fun k => hother k ▸ h.own k, fun k => ?_, ?_, fun k => ?_, ?_, fun k hk => ?_,
    fun hall k => ?_, ?_⟩
  · rw [hother]
    exact (h.worked k).frame (congrFun hi k) (congrFun hmysum k) fun _ => ⟨congrFun hseen k, hsum⟩
  · simp only [hsum, hother]
    exact h.sum
  · rw [hended, hother]
    exact h.ended k
  · rw [hnone]
    exact ⟨created.1, fun hq => created.2 fun he => hq (he ▸ rfl)⟩
  · rw [hended]
    exact joined k hk
  · rw [hended]
    refine all ?_ k
    rw [hnone] at hall
    simpa using hall
  · rw [hnone, printed]
    simp

omit [AddCommMonoid α] [Mul α] in
theorem critical_unique (hg : Guarded () critical (fun _ => True) s) {t u : Option (Fin n)}
    (ht : critical (s.pc t) = true) (hu : critical (s.pc u) = true) : t = u :=
  Option.some.inj (((hg.owner t).mpr ht).symm.trans ((hg.owner u).mpr hu))

section Act

variable {t : Option (Fin n)} {k : Fin n}

theorem Inv.caller_eq (h : Inv len x y s) {p : MainPc} (hp : s.pc t = .main p) : t = none := by
  cases t with
  | none => rfl
  | some k =>
    obtain ⟨q, hq⟩ := h.own k
    cases hp.symm.trans hq

theorem Inv.unprinted (h : Inv len x y s) {p : MainPc} (hp : s.pc none = .main p) (hne : p ≠ .finished) :
    s.data.printed = none := by
  rw [h.printed, if_neg fun hf => hne (Pc.main.inj (hp.symm.trans hf))]

theorem Inv.begin (h : Inv len x y s) (hp : s.pc (some k) = .dotprod .born)
    (hpc : s'.pc = Function.update s.pc (some k) (.dotprod .loop))
    (hd : s'.data = { s.data with
      i := Function.update s.data.i k (k * len), mysum := Function.update s.data.mysum k 0 }) :
    Inv len x y s' := by
  refine h.thread hp hpc (by simp) ?_ (fun j hj hw => ?_) (.inl ⟨rfl, hd ▸ rfl⟩)
    (.inl ⟨by simp, hd ▸ rfl⟩) (by simp [hd])
  · rw [hd]
    simp [Worked, part]
  · rw [hd]
    exact hw.frame (Function.update_of_ne hj _ _) (Function.update_of_ne hj _ _) fun _ => ⟨rfl, rfl⟩

theorem Inv.pass (h : Inv len x y s) (hp : s.pc (some k) = .dotprod .loop)
    (hpc : s'.pc = Function.update s.pc (some k) (.dotprod .loop)) (more : s.data.i k < k * len + len)
    (hd : s'.data = { s.data with
      mysum := Function.update s.data.mysum k (s.data.mysum k + x (s.data.i k) * y (s.data.i k))
      i := Function.update s.data.i k (s.data.i k + 1) }) : Inv len x y s' := by
  have hw := h.worked k
  rw [hp] at hw
  obtain ⟨hle, -, hmysum⟩ := hw
  refine h.thread hp hpc (by simp) ?_ (fun j hj hw => ?_) (.inl ⟨rfl, hd ▸ rfl⟩)
    (.inl ⟨by simp, hd ▸ rfl⟩) (by simp [hd])
  · rw [hd]
    simp only [Worked, Function.update_self]
    exact ⟨by omega, by omega, by rw [hmysum, part, part, Finset.sum_Ico_succ_top hle]⟩
  · rw [hd]
    exact hw.frame (Function.update_of_ne hj _ _) (Function.update_of_ne hj _ _) fun _ => ⟨rfl, rfl⟩

theorem Inv.leave (h : Inv len x y s) (hp : s.pc (some k) = .dotprod .loop)
    (hpc : s'.pc = Function.update s.pc (some k) (.dotprod .lock)) (done : ¬s.data.i k < k * len + len)
    (hd : s'.data = s.data) : Inv len x y s' := by
  have hw := h.worked k
  rw [hp] at hw
  obtain ⟨-, hle, hmysum⟩ := hw
  have hi : s.data.i k = k * len + len := by omega
  refine h.thread hp hpc (by simp) ?_ (fun j hj hw => hd ▸ hw) (.inl ⟨rfl, hd ▸ rfl⟩)
    (.inl ⟨by simp, hd ▸ rfl⟩) (by simp [hd])
  rw [hd]
  simp only [Worked, share]
  rw [hmysum, hi]

theorem Inv.read (h : Inv len x y s) (hp : s.pc (some k) = .dotprod .read)
    (hpc : s'.pc = Function.update s.pc (some k) (.dotprod .write))
    (hd : s'.data = { s.data with seen := Function.update s.data.seen k s.data.sum }) : Inv len x y s' := by
  have hw := h.worked k
  rw [hp] at hw
  refine h.thread hp hpc (by simp) ?_ (fun j hj hw => ?_) (.inl ⟨rfl, hd ▸ rfl⟩)
    (.inl ⟨by simp, hd ▸ rfl⟩) (by simp [hd])
  · rw [hd]
    exact ⟨hw, Function.update_self _ _ _⟩
  · rw [hd]
    exact hw.frame rfl rfl fun _ => ⟨Function.update_of_ne hj _ _, rfl⟩

/-- No other thread has read the sum that is now overwritten. -/
theorem Inv.write (h : Inv len x y s) (hg : Guarded () critical (fun _ => True) s)
    (hp : s.pc (some k) = .dotprod .write)
    (hpc : s'.pc = Function.update s.pc (some k) (.dotprod .unlock))
    (hd : s'.data = { s.data with sum := s.data.seen k + s.data.mysum k }) : Inv len x y s' := by
  have apart : ∀ j ≠ k, s.pc (some j) ≠ .dotprod .write := fun j hj hw =>
    hj (Option.some.inj (critical_unique hg (by rw [hw]; rfl) (by rw [hp]; rfl)))
  have hw := h.worked k
  rw [hp] at hw
  refine h.thread hp hpc (by simp) trivial (fun j hj hw => ?_) (.inr ⟨rfl, rfl, ?_⟩)
    (.inl ⟨by simp, hd ▸ rfl⟩) (by simp [hd])
  · rw [hd]
    exact hw.frame rfl rfl fun he => absurd he (apart j hj)
  · rw [hd]
    show s.data.seen k + s.data.mysum k = _
    rw [hw.2, hw.1]

theorem Inv.exit (h : Inv len x y s) (hp : s.pc (some k) = .dotprod .exit)
    (hpc : s'.pc = Function.update s.pc (some k) (.dotprod .gone))
    (hd : s'.data = { s.data with ended := Function.update s.data.ended k true }) : Inv len x y s' := by
  refine h.thread hp hpc (by simp) trivial (fun j hj hw => ?_) (.inl ⟨rfl, hd ▸ rfl⟩)
    (.inr ⟨rfl, hd ▸ rfl⟩) (by simp [hd])
  rw [hd]
  exact hw.frame rfl rfl fun _ => ⟨rfl, rfl⟩

theorem Inv.create (h : Inv len x y s) (hp : s.pc none = .main .create)
    (hpc : s'.pc = Function.update s.pc none (.main .create)) (more : s.data.created < n)
    (hd : s'.data = { s.data with created := s.data.created + 1 }) : Inv len x y s' := by
  refine h.caller hpc (by simp [hd]) ⟨by rw [hd]; exact more, fun hq => absurd rfl hq⟩ ?_ (by simp) ?_
  · rw [hd]
    exact h.joined
  · rw [hd]
    simpa using h.unprinted hp (by simp)

theorem Inv.join (h : Inv len x y s) (hp : s.pc none = .main .join)
    (hpc : s'.pc = Function.update s.pc none (.main .join)) (more : s.data.joined < n)
    (ended : s.data.ended ⟨s.data.joined, more⟩ = true)
    (hd : s'.data = { s.data with joined := s.data.joined + 1 }) : Inv len x y s' := by
  have hcreated := h.created.2 (by simp [hp])
  refine h.caller hpc (by simp [hd]) ⟨by simp [hd, hcreated], fun _ => by rw [hd]; exact hcreated⟩ ?_ (by simp) ?_
  · rw [hd]
    intro k hk
    by_cases hlast : k.val = s.data.joined
    · rwa [show k = ⟨s.data.joined, more⟩ from Fin.ext hlast]
    · exact h.joined k (by simp only at hk; omega)
  · rw [hd]
    simpa using h.unprinted hp (by simp)

theorem Inv.goOn (h : Inv len x y s) {p q : MainPc} (hp : s.pc none = .main p)
    (hpc : s'.pc = Function.update s.pc none (.main q)) (hd : s'.data = s.data) (hne : p ≠ .finished)
    (hq : q ≠ .finished) (created : s.data.created = n) (all : q = .print → ∀ k, s.data.ended k = true) :
    Inv len x y s' := by
  refine h.caller hpc (by simp [hd]) (by simp [hd, created]) ?_ (fun hor => all (hor.resolve_right hq)) ?_
  · rw [hd]
    exact h.joined
  · rw [hd, if_neg hq]
    exact h.unprinted hp hne

/-- Every share is in the sum that is printed. -/
theorem Inv.print (h : Inv len x y s) (hp : s.pc none = .main .print)
    (hpc : s'.pc = Function.update s.pc none (.main .finished))
    (hd : s'.data = { s.data with printed := some s.data.sum }) : Inv len x y s' := by
  have hcreated := h.created.2 (by simp [hp])
  have hall := h.all (.inl hp)
  refine h.caller hpc (by simp [hd]) ⟨by simp [hd, hcreated], fun _ => by rw [hd]; exact hcreated⟩ ?_
    (fun _ => hall) ?_
  · rw [hd]
    exact h.joined
  · rw [hd, if_pos rfl]
    refine congrArg some (h.sum.trans (Finset.sum_congr rfl fun k _ => ?_))
    rw [paid, (h.ended k).mp (hall k)]
    rfl

theorem Inv.act (h : Inv len x y s) (hg : Guarded () critical (fun _ => True) s) {next : Pc}
    (hpc : s'.pc = Function.update s.pc t next) (he : Effect len x y s.data t (s.pc t) next s'.data) :
    Inv len x y s' := by
  generalize hp : s.pc t = p at he
  generalize hd : s'.data = d' at he
  cases he with
  | begin k _ => exact h.begin hp hpc hd
  | pass k more => exact h.pass hp hpc more hd
  | leave k done => exact h.leave hp hpc done hd
  | read k => exact h.read hp hpc hd
  | write k => exact h.write hg hp hpc hd
  | exit k => exact h.exit hp hpc hd
  | create more =>
    obtain rfl := h.caller_eq hp
    exact h.create hp hpc more hd
  | created done =>
    obtain rfl := h.caller_eq hp
    have hle := h.created.1
    exact h.goOn hp hpc hd (by simp) (by simp) (by omega) (by simp)
  | join more ended =>
    obtain rfl := h.caller_eq hp
    exact h.join hp hpc more ended hd
  | joined done =>
    obtain rfl := h.caller_eq hp
    exact h.goOn hp hpc hd (by simp) (by simp) (h.created.2 (by simp [hp]))
      fun _ k => h.joined k (by omega)
  | print =>
    obtain rfl := h.caller_eq hp
    exact h.print hp hpc hd

end Act

theorem Inv.step (h : Inv len x y s) (hg : Guarded () critical (fun _ => True) s) {e : Step n}
    (hs : s.step (code n len x y) e = some s') : Inv len x y s' := by
  rcases e with ⟨t, choice, woken⟩ | ⟨c, -⟩
  swap
  · exact c.elim
  obtain ⟨-, next, hpc, ⟨hn, hd⟩ | ⟨f, hf, hact, -⟩⟩ := step_run hs
  swap
  · exact h.act hg hpc (effect_of_act hf hact)
  cases t with
  | none =>
    obtain ⟨p, hp⟩ := h.main
    rcases sync_eq hn with ⟨hp', -⟩ | ⟨hp', -⟩ <;> cases hp.symm.trans hp'
  | some k =>
    have hw := h.worked k
    rcases sync_eq hn with ⟨hp, rfl⟩ | ⟨hp, rfl⟩ <;> rw [hp] at hw
    · exact h.thread hp hpc (by simp) (by rw [hd]; exact hw) (fun j _ hw => hd ▸ hw) (.inl ⟨rfl, by rw [hd]⟩)
        (.inl ⟨by simp, by rw [hd]⟩) (by simp [hd])
    · exact h.thread hp hpc (by simp) trivial (fun j _ hw => hd ▸ hw) (.inl ⟨rfl, by rw [hd]⟩)
        (.inl ⟨by simp, by rw [hd]⟩) (by simp [hd])

omit [AddCommMonoid α] [Mul α] in
theorem not_blocked (s : State n α) (t : Option (Fin n)) : ¬s.Blocked t := fun ⟨c, _⟩ => c.elim

theorem step_of_act {t : Option (Fin n)} {f} {r : Shared n α × Pc} (hc : code n len x y (s.pc t) = .act f)
    (hf : f t () s.data = some r) : ∃ e s', s.step (code n len x y) e = some s' :=
  ⟨.run t () ∅, _, by simp only [Machine.step, if_neg (not_blocked s t), hc, hf, Option.map_some]; rfl⟩

theorem step_of_unlock {t : Option (Fin n)} {next : Pc} (hc : code n len x y (s.pc t) = .unlock () next) :
    ∃ e s', s.step (code n len x y) e = some s' :=
  ⟨.run t () ∅, _, by simp only [Machine.step, if_neg (not_blocked s t), hc]; rfl⟩

theorem step_of_lock {t : Option (Fin n)} {next : Pc} (hc : code n len x y (s.pc t) = .lock () next)
    (free : s.owner () = none) : ∃ e s', s.step (code n len x y) e = some s' :=
  ⟨.run t () ∅, _, by simp only [Machine.step, if_neg (not_blocked s t), hc, if_pos free]; rfl⟩

theorem thread_steps {k : Fin n} {p : DotPc} (hp : s.pc (some k) = .dotprod p) (made : k.val < s.data.created)
    (free : p = .lock → s.owner () = none) (hne : p ≠ .gone) : ∃ e s', s.step (code n len x y) e = some s' := by
  cases p with
  | born =>
    exact step_of_act (t := some k) (by rw [hp]; rfl) (by simp only [Option.bind_some, if_pos made]; rfl)
  | loop =>
    by_cases more : s.data.i k < k * len + len
    · exact step_of_act (t := some k) (by rw [hp]; rfl) (by simp only [Option.bind_some, if_pos more]; rfl)
    · exact step_of_act (t := some k) (by rw [hp]; rfl) (by simp only [Option.bind_some, if_neg more]; rfl)
  | lock => exact step_of_lock (t := some k) (by rw [hp]; rfl) (free rfl)
  | read | write | exit => exact step_of_act (t := some k) (by rw [hp]; rfl) rfl
  | unlock => exact step_of_unlock (t := some k) (by rw [hp]; rfl)
  | gone => exact absurd rfl hne

theorem Inv.progress (h : Inv len x y s) (hg : Guarded () critical (fun _ => True) s)
    (hnone : s.data.printed = none) : ∃ e s', s.step (code n len x y) e = some s' := by
  obtain ⟨p, hp⟩ := h.main
  cases p with
  | create =>
    by_cases more : s.data.created < n
    · exact step_of_act (t := none) (by rw [hp]; rfl) (by simp only [if_pos more]; rfl)
    · exact step_of_act (t := none) (by rw [hp]; rfl) (by simp only [if_neg more]; rfl)
  | join =>
    have hcreated := h.created.2 (by simp [hp])
    by_cases more : s.data.joined < n
    swap
    · exact step_of_act (t := none) (by rw [hp]; rfl) (by simp only [dif_neg more]; rfl)
    by_cases ended : s.data.ended ⟨s.data.joined, more⟩ = true
    · exact step_of_act (t := none) (by rw [hp]; rfl) (by simp only [dif_pos more, if_pos ended]; rfl)
    obtain ⟨q, hq⟩ := h.own ⟨s.data.joined, more⟩
    have live : q ≠ .gone := fun he => ended ((h.ended _).mpr (he ▸ hq))
    by_cases free : s.owner () = none
    · exact thread_steps hq (by simp only; omega) (fun _ => free) live
    -- the thread that holds the mutex can go on
    obtain ⟨u, hu⟩ := Option.ne_none_iff_exists'.mp free
    have hcrit := (hg.owner u).mp hu
    cases u with
    | none =>
      rw [hp] at hcrit
      cases hcrit
    | some k =>
      obtain ⟨r, hr⟩ := h.own k
      rw [hr] at hcrit
      refine thread_steps hr (by omega) (fun he => ?_) fun he => ?_ <;>
      · rw [he] at hcrit
        cases hcrit
  | print => exact step_of_act (t := none) (by rw [hp]; rfl) rfl
  | finished =>
    rw [h.printed, if_pos hp] at hnone
    cases hnone

def toGo (len : Nat) (d : Shared n α) : Option (Fin n) → Pc → Nat
  | _, .dotprod .born => len + 7
  | some k, .dotprod .loop => k * len + len - d.i k + 6
  | none, .dotprod .loop => 6
  | _, .dotprod .lock => 5
  | _, .dotprod .read => 4
  | _, .dotprod .write => 3
  | _, .dotprod .unlock => 2
  | _, .dotprod .exit => 1
  | _, .dotprod .gone => 0
  | _, .main .create => (n - d.created) + (n - d.joined) + 3
  | _, .main .join => (n - d.joined) + 2
  | _, .main .print => 1
  | _, .main .finished => 0

def left (len : Nat) (s : State n α) : Nat := ∑ t, toGo len s.data t (s.pc t)

theorem toGo_act {t : Option (Fin n)} {p q : Pc} {d d' : Shared n α} (he : Effect len x y d t p q d') :
    toGo len d' t q < toGo len d t p ∧ ∀ u ≠ t, ∀ r, toGo len d' u r ≤ toGo len d u r := by
  have others : ∀ u r, (∀ k, u = some k → d'.i k = d.i k) → d.created ≤ d'.created → d.joined ≤ d'.joined →
      toGo len d' u r ≤ toGo len d u r := fun u r hi hc hj => by
    rcases r with r | r
    · cases r <;> cases u <;> simp [toGo, hi]
    · cases r <;> simp only [toGo] <;> omega
  cases he with
  | begin k room =>
    refine ⟨by simp [toGo], fun u hu r => others u r (fun j hj => ?_) le_rfl le_rfl⟩
    exact Function.update_of_ne (fun he => hu (by rw [hj, he])) _ _
  | pass k more =>
    refine ⟨by simp only [toGo, Function.update_self]; omega, fun u hu r => others u r (fun j hj => ?_) le_rfl le_rfl⟩
    exact Function.update_of_ne (fun he => hu (by rw [hj, he])) _ _
  | leave k done => exact ⟨by simp only [toGo]; omega, fun u _ r => others u r (fun _ _ => rfl) le_rfl le_rfl⟩
  | read k | write k | exit k =>
    exact ⟨by simp only [toGo]; omega, fun u _ r => others u r (fun _ _ => rfl) le_rfl le_rfl⟩
  | create more =>
    exact ⟨by simp only [toGo]; omega, fun u _ r => others u r (fun _ _ => rfl) (Nat.le_succ _) le_rfl⟩
  | created done => exact ⟨by simp only [toGo]; omega, fun u _ r => others u r (fun _ _ => rfl) le_rfl le_rfl⟩
  | join more ended =>
    exact ⟨by simp only [toGo]; omega, fun u _ r => others u r (fun _ _ => rfl) le_rfl (Nat.le_succ _)⟩
  | joined done => exact ⟨by simp only [toGo]; omega, fun u _ r => others u r (fun _ _ => rfl) le_rfl le_rfl⟩
  | print => exact ⟨by simp only [toGo]; omega, fun u _ r => others u r (fun _ _ => rfl) le_rfl le_rfl⟩

theorem left_step {e : Step n} (hs : s.step (code n len x y) e = some s') : left len s' < left len s := by
  rcases e with ⟨t, choice, woken⟩ | ⟨c, -⟩
  swap
  · exact c.elim
  obtain ⟨-, next, hpc, hdo⟩ := step_run hs
  have hself : s'.pc t = next := by rw [hpc, Function.update_self]
  obtain ⟨hlt, hle⟩ : toGo len s'.data t next < toGo len s.data t (s.pc t) ∧
      ∀ u ≠ t, ∀ r, toGo len s'.data u r ≤ toGo len s.data u r := by
    rcases hdo with ⟨hn, hd⟩ | ⟨f, hf, hact, -⟩
    · refine ⟨?_, fun u _ r => hd ▸ le_rfl⟩
      rcases sync_eq hn with ⟨hp, rfl⟩ | ⟨hp, rfl⟩ <;> rw [hp] <;> simp [toGo]
    · exact toGo_act (effect_of_act hf hact)
  refine Finset.sum_lt_sum (fun u _ => ?_) ⟨t, Finset.mem_univ t, hself ▸ hlt⟩
  by_cases hu : u = t
  · rw [hu, hself]
    exact hlt.le
  · rw [pc_of_ne hs hu]
    exact hle u hu _

omit [Mul α] in
theorem left_init (n len : Nat) : left len (init n : State n α) = n * (len + 9) + 3 := by
  simp [left, Fintype.sum_option, init, Machine.start, entry, toGo, Nat.mul_add]
  omega

end Threads

/-- However the threads are interleaved, `main` prints the dot product of the whole vectors: each
share is added once, and no addition is lost. Until then some thread can go on, and a run has so many
steps at most. -/
theorem main_prints_dot_product {α : Type*} [AddCommMonoid α] [Mul α] (n len : Nat) (x y : Nat → α)
    {es : List (Step n)} {s : State n α} (run : es.foldlM (Machine.step (code n len x y)) (init n) = some s) :
    (∀ v, s.data.printed = some v → v = ∑ j ∈ Finset.range (n * len), x j * y j) ∧
      (s.data.printed = none → ∃ e s', s.step (code n len x y) e = some s') ∧
      es.length ≤ n * (len + 9) + 3 := by
  have first : Guarded () critical (fun _ => True) (init n : State n α) :=
    ⟨fun _ => trivial, fun t => by cases t <;> simp [init, Machine.start, entry, critical]⟩
  have h : Inv len x y s ∧ Guarded () critical (fun _ => True) s := by
    refine foldlM_keeps (P := fun s => Inv len x y s ∧ Guarded () critical (fun _ => True) s)
      (fun s e t hs ht => ?_) ⟨init_inv n len x y, first⟩ run
    exact ⟨hs.1.step hs.2 ht, guards.guarded hs.2 trivial ht⟩
  refine ⟨fun v hv => ?_, h.1.progress h.2, ?_⟩
  · have hprinted := h.1.printed
    split at hprinted
    · rw [← sum_parts]
      exact Option.some.inj (hv.symm.trans hprinted)
    · rw [hprinted] at hv
      cases hv
  · have hle := length_add_le_of_foldlM (fun _ _ _ ht => left_step ht) run
    rw [left_init] at hle
    omega

/-- Two threads with a product each, the second of which is the first to add. -/
def secondFirst : List (Step 2) :=
  List.replicate 3 (.run none () ∅) ++ List.replicate 8 (.run (some 1) () ∅) ++
    List.replicate 8 (.run (some 0) () ∅) ++ List.replicate 4 (.run none () ∅)

theorem main_prints_dot_product_two : ∃ s : State 2 Int,
    secondFirst.foldlM (Machine.step (code 2 1 (fun j => (j : Int)) fun _ => 3)) (init 2) = some s ∧
      s.data.printed = some 3 ∧
      (∀ v, s.data.printed = some v → v = ∑ j ∈ Finset.range (2 * 1), (j : Int) * 3) ∧
      (s.data.printed = none →
        ∃ e s', s.step (code 2 1 (fun j => (j : Int)) fun _ => 3) e = some s') ∧
      23 ≤ 2 * (1 + 9) + 3 := by
  obtain ⟨s, run, printed⟩ : ∃ s : State 2 Int,
      secondFirst.foldlM (Machine.step (code 2 1 (fun j => (j : Int)) fun _ => 3)) (init 2) = some s ∧
        s.data.printed = some 3 := ⟨_, rfl, rfl⟩
  exact ⟨s, run, printed, main_prints_dot_product 2 1 _ _ run⟩

end DotProduct

end TcpAndParallel
