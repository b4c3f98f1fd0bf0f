import TcpAndParallel.Circles
import TcpAndParallel.Runs

namespace TcpAndParallel

namespace ThreadPools

variable {ι : Type*} [DecidableEq ι]

/-- `thr_pools` with the links of the pools; `live` are the pools created and not yet destroyed. -/
structure Pools (ι : Type*) where
  thrPools : Option ι
  forw : ι → ι
  back : ι → ι
  live : List ι

inductive Call (ι : Type*)
  | create (pool : ι)
  | destroy (pool : ι)

/-- What `thr_pool_create` does under `thr_pool_lock`. -/
def thrPoolCreate (pool : ι) (s : Pools ι) : Pools ι :=
  match s.thrPools with
  | none => { s with
      forw := Function.update s.forw pool pool
      back := Function.update s.back pool pool
      thrPools := some pool
      live := s.live ++ [pool] }
  | some thrPools =>
    let forw := Function.update s.forw (s.back thrPools) pool
    let forw := Function.update forw pool thrPools
    let back := Function.update s.back pool (s.back thrPools)
    let back := Function.update back thrPools pool
    { s with forw := forw, back := back, live := s.live ++ [pool] }

/-- What `thr_pool_destroy` does under `thr_pool_lock`. -/
def thrPoolDestroy (pool : ι) (s : Pools ι) : Pools ι :=
  let thrPools := if s.thrPools = some pool then some (s.forw pool) else s.thrPools
  let live := s.live.erase pool
  if thrPools = some pool then { s with thrPools := none, live := live }
  else
    let forw := Function.update s.forw (s.back pool) (s.forw pool)
    let back := Function.update s.back (forw pool) (s.back pool)
    { s with thrPools := thrPools, forw := forw, back := back, live := live }

/-- The pools come from `malloc`, which gives out no memory that is in use. -/
def step (s : Pools ι) : Call ι → Option (Pools ι)
  | .create pool => if pool ∈ s.live then none else some (thrPoolCreate pool s)
  | .destroy pool => some (thrPoolDestroy pool s)

/-- Only pools that there are get destroyed. -/
def Legal (s : Pools ι) : Call ι → Prop
  | .create _ => True
  | .destroy pool => pool ∈ s.live

instance (s : Pools ι) (call : Call ι) : Decidable (Legal s call) :=
  match call with
  | .create _ => inferInstanceAs (Decidable True)
  | .destroy pool => inferInstanceAs (Decidable (pool ∈ s.live))

def start (forw back : ι → ι) : Pools ι := ⟨none, forw, back, []⟩

def Linked (s : Pools ι) : Prop := Circular s.forw s.back s.thrPools s.live

theorem Linked.create {s : Pools ι} (hs : Linked s) {pool : ι} (hp : pool ∉ s.live) :
    Linked (thrPoolCreate pool s) := by
  unfold Linked at hs ⊢
  cases hlive : s.live with
  | nil =>
    rw [hlive] at hs
    have hnone : s.thrPools = none := hs
    simp [thrPoolCreate, hnone, hlive, Circular, Linking]
  | cons x xs =>
    rw [hlive] at hs hp
    have hconcat := hs.concat hp
    obtain ⟨hhead, -, -⟩ := hs
    rw [hhead] at hconcat
    simpa [thrPoolCreate, hhead, hlive] using hconcat

theorem Linked.destroy {s : Pools ι} (hs : Linked s) {pool : ι} (hp : pool ∈ s.live) :
    Linked (thrPoolDestroy pool s) := by
  unfold Linked at hs ⊢
  cases hlive : s.live with
  | nil => simp [hlive] at hp
  | cons x xs =>
    rw [hlive] at hs hp
    have hhead := hs.1
    have hout := List.nodup_cons.mp hs.2.1
    by_cases hx : pool = x
    · subst hx
      cases xs with
      | nil =>
        have hself : s.forw pool = pool := hs.2.2.1
        simp [thrPoolDestroy, hhead, hself, hlive, Circular]
      | cons y ys =>
        obtain ⟨hforw, hrest⟩ := hs.remove_head
        have hyp : y ≠ pool := by
          rintro rfl
          exact hout.1 List.mem_cons_self
        have hback : s.back pool ≠ pool := by
          intro he
          have hm := hs.2.2.2.2.back_mem
          rw [he] at hm
          exact hout.1 hm
        have hpforw : Function.update s.forw (s.back pool) (s.forw pool) pool = s.forw pool :=
          Function.update_of_ne (Ne.symm hback) _ _
        rw [hforw] at hrest hpforw
        simpa [thrPoolDestroy, hhead, hforw, hyp, hpforw, hlive] using hrest
    · have hm := (List.mem_cons.mp hp).resolve_left hx
      obtain ⟨before, after, rfl⟩ := List.append_of_mem hm
      have hne : ¬s.thrPools = some pool := by
        rw [hhead]
        exact fun he => hx (Option.some.inj he).symm
      have hbefore : pool ∉ before := by
        intro hb
        exact (List.nodup_append.mp hout.2).2.2 pool hb pool (by simp) rfl
      have hback : s.back pool ≠ pool := by
        intro he
        have hlinks := (linking_append.mp hs.2.2).1.back_mem
        rw [he] at hlinks
        rcases List.mem_cons.mp hlinks with hlinks | hlinks
        · exact hx hlinks
        · exact hbefore hlinks
      have hpforw : Function.update s.forw (s.back pool) (s.forw pool) pool = s.forw pool :=
        Function.update_of_ne (Ne.symm hback) _ _
      have herase : (x :: (before ++ pool :: after)).erase pool = x :: (before ++ after) := by
        rw [List.erase_cons_tail (by simpa using Ne.symm hx), List.erase_append_right _ hbefore,
          List.erase_cons_head]
      simpa [thrPoolDestroy, hne, hpforw, hlive, herase] using hs.remove

/-- In every run of calls the list of all pools is a circle of just the pools that there are, in the
order of their creation, and walking it from `thr_pools` comes back there. -/
theorem pools_linked {forw back : ι → ι} {s : Pools ι}
    (h : Reaches step Legal (start forw back) s) :
    Linked s ∧ ∀ pool, s.thrPools = some pool →
      List.iterate s.forw pool s.live.length = s.live ∧ s.forw^[s.live.length] pool = pool := by
  have hlinked : Linked s := by
    refine h.invariant (I := Linked) rfl fun s call t hs hlegal ht => ?_
    cases call with
    | create pool =>
      simp only [step] at ht
      split at ht
      next => simp at ht
      next hnew =>
        obtain rfl := Option.some.inj ht
        exact hs.create hnew
    | destroy pool =>
      obtain rfl := Option.some.inj ht
      exact hs.destroy hlegal
  refine ⟨hlinked, fun pool hpool => ?_⟩
  unfold Linked at hlinked
  cases hlive : s.live with
  | nil =>
    rw [hlive] at hlinked
    simp [show s.thrPools = none from hlinked] at hpool
  | cons x xs =>
    rw [hlive] at hlinked
    obtain ⟨hhead, -, hlinks⟩ := hlinked
    obtain rfl := Option.some.inj (hhead.symm.trans hpool)
    exact ⟨hlinks.walk, hlinks.iterate⟩

/-- The first and a middle one of four pools destroyed. -/
theorem pools_linked_four : ∃ s, Reaches step Legal (start (fun i : Fin 4 => i) fun i => i) s ∧
    s.live = [1, 3] ∧ Linked s ∧ ∀ pool, s.thrPools = some pool →
      List.iterate s.forw pool s.live.length = s.live ∧ s.forw^[s.live.length] pool = pool := by
  have run : ∃ s, Reaches step Legal (start (fun i : Fin 4 => i) fun i => i) s ∧ s.live = [1, 3] :=
    exists_reaches [.create 0, .create 1, .create 2, .destroy 0, .create 3, .destroy 2] (by decide)
  obtain ⟨s, hr, hlive⟩ := run
  exact ⟨s, hr, hlive, pools_linked hr⟩

end ThreadPools

end TcpAndParallel
