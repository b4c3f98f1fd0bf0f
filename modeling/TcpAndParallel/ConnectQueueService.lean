import TcpAndParallel.ConnectQueue

namespace TcpAndParallel

namespace ConnectQueue

variable {τ : Type*} [DecidableEq τ]

def serving (p : Pc) : Bool := p matches .servlet .count | .servlet .stamp | .servlet .respond

/-- No null pointer was followed, the connections leave in order of arrival and the others are on
the queue, and those that left are responded to once. -/
structure Served (s : State τ) : Prop where
  noFault : s.data.fault = false
  order : ∃ rest, s.data.queued = s.data.removed ++ rest ∧ Chain s.data.next s.data.first rest ∧
    s.data.last = rest.getLast?
  once : s.data.responded.Nodup
  removed : ∀ n ∈ s.data.responded, n ∈ s.data.removed
  served : ∀ n ∈ s.data.removed,
    n ∈ s.data.responded ∨ ∃ t, serving (s.pc t) = true ∧ s.data.hand t = some n

/-- No servlet removes a connection, and `calloc` does not fail. -/
def Spares (s : State τ) : Step τ → Prop
  | .run t call _ => s.pc t ≠ .servlet .remove ∧ (s.pc t = .gate .calloc → call.memory = true)
  | .spurious _ _ => True

instance (s : State τ) (e : Step τ) : Decidable (Spares s e) :=
  match e with
  | .run _ _ _ => instDecidableAnd
  | .spurious _ _ => inferInstanceAs (Decidable True)

def making : Pc → Bool
  | .gate p => (p matches .fill | .lock | .insert)
  | .servlet _ => false

def carried (pc : τ → Pc) (d : Server τ) (t : τ) : Option (τ × Nat) :=
  if making (pc t) then d.hand t else none

/-- Where a servlet can be before its first removal. -/
def early : Pc → Bool
  | .gate _ => true
  | .servlet p => (p matches .lock | .retry | .check | .wait | .wake | .remove)

def untried (p : Pc) : Bool := p matches .servlet .lock | .servlet .retry

/-- The queue while nothing is taken from it: the first connection has no `prev`. -/
structure Filling (s : State τ) : Prop where
  made : Made (carried s.pc s.data) s.data.calls s.data.queued
  blank : ∀ t n, carried s.pc s.data t = some n → s.data.next n = none ∧ s.data.prev n = none
  links : Chain s.data.next s.data.first s.data.queued
  last : s.data.last = s.data.queued.getLast?
  noPrev : ∀ n, s.data.first = some n → s.data.prev n = none
  kept : s.data.removed = [] ∧ s.data.responded = [] ∧ s.data.fault = false
  unserved : ∀ t, early (s.pc t) = true
  retries : ∀ t, untried (s.pc t) = true → s.data.retries t = 2

omit [DecidableEq τ] in
theorem Filling.served {s : State τ} (hs : Filling s) : Served s := by
  obtain ⟨hremoved, hresponded, hfault⟩ := hs.kept
  refine ⟨hfault, ⟨s.data.queued, ?_, hs.links, hs.last⟩, ?_, ?_, ?_⟩
  · rw [hremoved, List.nil_append]
  · rw [hresponded]
    exact List.nodup_nil
  · simp [hresponded]
  · simp [hremoved]

section Insert

variable {d : Server τ} {ptr : τ × Nat}

theorem insert_links (links : Chain d.next d.first d.queued) (last : d.last = d.queued.getLast?)
    (new : ptr ∉ d.queued) (blank : d.next ptr = none) :
    Chain (insert ptr d).next (insert ptr d).first (d.queued ++ [ptr]) ∧
      (insert ptr d).last = (d.queued ++ [ptr]).getLast? := by
  unfold insert
  split
  next l hl =>
    obtain ⟨front, hfront⟩ := List.getLast?_eq_some_iff.mp (last.symm.trans hl)
    rw [hfront] at links new ⊢
    refine ⟨?_, by simp⟩
    have hchain := links.insert_after new
    have hnone : d.next l = none := links.next_eq
    have hblank : Function.update d.next ptr none = d.next := Function.update_eq_self_iff.mpr blank.symm
    rw [hnone, hblank] at hchain
    simpa using hchain
  next hl =>
    have hnil : d.queued = [] := List.getLast?_eq_none_iff.mp (last.symm.trans hl)
    rw [hnil]
    exact ⟨⟨rfl, blank⟩, rfl⟩

theorem insert_noPrev (links : Chain d.next d.first d.queued) (new : ptr ∉ d.queued)
    (blank : d.prev ptr = none)
    (noPrev : ∀ n, d.first = some n → d.prev n = none) :
    ∀ n, (insert ptr d).first = some n → (insert ptr d).prev n = none := by
  unfold insert
  split
  next l hl =>
    intro n hn
    have hne : n ≠ ptr := by
      rintro rfl
      have hhead := links.head_eq
      rw [hn] at hhead
      exact new (List.mem_of_head? hhead.symm)
    show Function.update d.prev ptr (some l) n = none
    rw [Function.update_of_ne hne]
    exact noPrev n hn
  next hl =>
    intro n hn
    obtain rfl := Option.some.inj hn
    exact blank

variable (ptr) in
theorem insert_frame {n : τ × Nat} (hn : n ∉ d.queued) (hne : n ≠ ptr)
    (last : d.last = d.queued.getLast?) :
    (insert ptr d).next n = d.next n ∧ (insert ptr d).prev n = d.prev n := by
  unfold insert
  split
  next l hl =>
    have hnl : n ≠ l := by
      rintro rfl
      exact hn (List.mem_of_getLast? (last.symm.trans hl))
    exact ⟨Function.update_of_ne hnl .., Function.update_of_ne hne ..⟩
  next => exact ⟨rfl, rfl⟩

variable (ptr d) in
theorem insert_rest : (insert ptr d).hand = d.hand ∧ (insert ptr d).calls = d.calls ∧
    (insert ptr d).queued = d.queued ++ [ptr] ∧ (insert ptr d).retries = d.retries ∧
      (insert ptr d).removed = d.removed ∧ (insert ptr d).responded = d.responded ∧
        (insert ptr d).fault = d.fault := by
  unfold insert
  split <;> exact ⟨rfl, rfl, rfl, rfl, rfl, rfl, rfl⟩

end Insert

section Run

variable {s s' : State τ} {t : τ} {call : Choice} {woken : Finset τ}

theorem carried_of_ne (h : s.step code (.run t call woken) = some s')
    (hh : ∀ u ≠ t, s'.data.hand u = s.data.hand u) {u : τ} (hu : u ≠ t) :
    carried s'.pc s'.data u = carried s.pc s.data u := by
  unfold carried
  rw [pc_of_ne h hu, hh u hu]

theorem next_quiet {p q : Pc} (hn : (code p : Op τ).next? = some q) (hp : early p = true) :
    (making q = true → making p = true) ∧ early q = true ∧ (untried q = true → untried p = true) := by
  rcases p with p | p <;> cases p <;> simp [Instr.next?] at hn <;> subst hn <;>
    simp [early, untried, making] at hp ⊢

theorem Filling.quiet (hs : Filling s) (h : s.step code (.run t call woken) = some s')
    (data : s'.data.hand = s.data.hand ∧ s'.data.calls = s.data.calls ∧ s'.data.next = s.data.next ∧
      s'.data.prev = s.data.prev ∧ s'.data.first = s.data.first ∧ s'.data.last = s.data.last ∧
      s'.data.queued = s.data.queued)
    (kept : s'.data.removed = s.data.removed ∧ s'.data.responded = s.data.responded ∧
      s'.data.fault = s.data.fault)
    (hmaking : making (s'.pc t) = true → making (s.pc t) = true) (hearly : early (s'.pc t) = true)
    (others : ∀ u ≠ t, s'.data.retries u = s.data.retries u)
    (hretries : untried (s'.pc t) = true → s'.data.retries t = 2) : Filling s' := by
  obtain ⟨hhand, hcalls, hnext, hprev, hfirst, hlast, hqueued⟩ := data
  have same : ∀ u, carried s'.pc s'.data u = carried s.pc s.data u ∨ carried s'.pc s'.data u = none := by
    intro u
    by_cases hu : u = t
    · subst hu
      unfold carried
      by_cases hm : making (s'.pc u) = true
      · rw [if_pos hm, if_pos (hmaking hm), hhand]
        exact .inl rfl
      · rw [if_neg hm]
        exact .inr rfl
    · exact .inl (carried_of_ne h (fun _ _ => by rw [hhand]) hu)
  refine ⟨?_, fun u n hn => ?_, ?_, ?_, ?_, ?_, fun u => ?_, fun u hu => ?_⟩
  · rw [hcalls, hqueued]
    exact hs.made.keep same
  · rw [hnext, hprev]
    rcases same u with hu | hu
    · exact hs.blank u n (hu ▸ hn)
    · simp [hu] at hn
  · rw [hnext, hfirst, hqueued]
    exact hs.links
  · rw [hlast, hqueued]
    exact hs.last
  · rw [hfirst, hprev]
    exact hs.noPrev
  · rw [kept.1, kept.2.1, kept.2.2]
    exact hs.kept
  · exact forall_pc_of_step (P := fun _ p => early p = true) h hs.unserved hearly u
  · by_cases hut : u = t
    · subst hut
      exact hretries hu
    · rw [pc_of_ne h hut] at hu
      rw [others u hut]
      exact hs.retries u hu

theorem Filling.calloc (hs : Filling s) (h : s.step code (.run t call woken) = some s')
    (hp' : s'.pc t = .gate .fill) (hd : s'.data = ConnectQueue.calloc t s.data) : Filling s' := by
  have others : ∀ u ≠ t, carried s'.pc s'.data u = carried s.pc s.data u := fun u hu =>
    carried_of_ne h (fun v hv => by rw [hd]; exact Function.update_of_ne hv ..) hu
  have self : carried s'.pc s'.data t = some (t, s.data.calls t) := by
    simp [carried, hp', making, hd, ConnectQueue.calloc]
  have new : (t, s.data.calls t) ∉ s.data.queued := fun hm =>
    absurd (hs.made.made _ hm) (Nat.lt_irrefl _)
  have hmade := hs.made.make others self
  refine ⟨?_, fun u n hn => ?_, ?_, ?_, fun n hn => ?_, ?_, fun u => ?_, fun u hu => ?_⟩
  · rw [hd] at hmade ⊢
    exact hmade
  · rw [hd]
    by_cases hu : u = t
    · subst hu
      obtain rfl := Option.some.inj (self.symm.trans hn)
      exact ⟨Function.update_self .., Function.update_self ..⟩
    · have hne : n ≠ (t, s.data.calls t) := by
        rintro rfl
        exact hu (hmade.own u _ hn).1.symm
      obtain ⟨hnext, hprev⟩ := hs.blank u n ((others u hu).symm.trans hn)
      exact ⟨(Function.update_of_ne hne ..).trans hnext, (Function.update_of_ne hne ..).trans hprev⟩
  · rw [hd]
    exact hs.links.update_of_notMem new
  · rw [hd]
    exact hs.last
  · rw [hd] at hn ⊢
    have hne : n ≠ (t, s.data.calls t) := by
      rintro rfl
      have hhead := hs.links.head_eq
      rw [show s.data.first = some (t, s.data.calls t) from hn] at hhead
      exact new (List.mem_of_head? hhead.symm)
    exact (Function.update_of_ne hne ..).trans (hs.noPrev n hn)
  · rw [hd]
    exact hs.kept
  · exact forall_pc_of_step (P := fun _ p => early p = true) h hs.unserved (by rw [hp']; rfl) u
  · rw [hd]
    exact forall_pc_of_step (P := fun u p => untried p = true → s.data.retries u = 2) h hs.retries
      (by simp [hp', untried]) u hu

theorem Filling.insert (hs : Filling s) (h : s.step code (.run t call woken) = some s')
    {ptr : τ × Nat} (hptr : s.data.hand t = some ptr) (hp : s.pc t = .gate .insert)
    (hp' : s'.pc t = .gate .broadcast) (hd : s'.data = ConnectQueue.insert ptr s.data) : Filling s' := by
  obtain ⟨hhand, hcalls, hqueued, hretries, hremoved, hresponded, hfault⟩ :=
    insert_rest s.data ptr
  have others : ∀ u ≠ t, carried s'.pc s'.data u = carried s.pc s.data u := fun u hu =>
    carried_of_ne h (fun _ _ => by rw [hd, hhand]) hu
  have hcarried : carried s.pc s.data t = some ptr := by
    simp [carried, hp, making, hptr]
  have hgone : carried s'.pc s'.data t = none := by
    simp [carried, hp', making]
  have hnew := (hs.made.own t ptr hcarried).2.2
  obtain ⟨hnext, hprev⟩ := hs.blank t ptr hcarried
  obtain ⟨hlinks, hlast⟩ := insert_links hs.links hs.last hnew hnext
  refine ⟨?_, fun u n hn => ?_, ?_, ?_, ?_, ?_, fun u => ?_, fun u hu => ?_⟩
  · have hmade := hs.made.put hcarried others hgone
    rw [hd, hcalls, hqueued, ← hd]
    exact hmade
  · have hu : u ≠ t := by
      rintro rfl
      simp [hgone] at hn
    have hn := (others u hu).symm.trans hn
    have hne : n ≠ ptr := by
      rintro rfl
      exact hu ((hs.made.own u n hn).1.symm.trans (hs.made.own t n hcarried).1)
    obtain ⟨hn', hp'⟩ := insert_frame ptr (hs.made.own u n hn).2.2 hne hs.last
    rw [hd, hn', hp']
    exact hs.blank u n hn
  · rw [hd, hqueued]
    exact hlinks
  · rw [hd, hqueued]
    exact hlast
  · rw [hd]
    exact insert_noPrev hs.links hnew hprev hs.noPrev
  · rw [hd, hremoved, hresponded, hfault]
    exact hs.kept
  · exact forall_pc_of_step (P := fun _ p => early p = true) h hs.unserved (by rw [hp']; rfl) u
  · rw [hd, hretries]
    exact forall_pc_of_step (P := fun u p => untried p = true → s.data.retries u = 2) h hs.retries
      (by simp [hp', untried]) u hu

theorem Filling.run (hs : Filling s) (h : s.step code (.run t call woken) = some s')
    (hC : s.pc t ≠ .servlet .remove ∧ (s.pc t = .gate .calloc → call.memory = true)) : Filling s' := by
  have hearly := hs.unserved t
  have hretries := hs.retries t
  obtain ⟨next, hpc, ⟨hn, hd⟩ | he⟩ := step_effect h
  · have hnext : s'.pc t = next := by rw [hpc, Function.update_self]
    obtain ⟨hmaking, hearly', huntried⟩ := next_quiet hn hearly
    apply hs.quiet h
    · simp [hd]
    · simp [hd]
    · rwa [hnext]
    · rw [hnext]
      exact hearly'
    · exact fun _ _ => by rw [hd]
    · rw [hnext, hd]
      exact fun hu => hretries (huntried hu)
  · have hnext : s'.pc t = next := by rw [hpc, Function.update_self]
    generalize hp : s.pc t = p at he hC hearly hretries
    generalize hd : s'.data = d' at he
    cases he with
    | calloc => exact hs.calloc h hnext hd
    | noMemory hno => simp [hno] at hC
    | insert hptr => exact hs.insert h hptr hp hnext hd
    | fill =>
      apply hs.quiet h
      · simp [hd]
      · simp [hd]
      · simp [hp, making]
      · simp [hnext, early]
      · exact fun _ _ => by rw [hd]
      · simp [hnext, untried]
    | retry =>
      apply hs.quiet h
      · simp [hd]
      · simp [hd]
      · simp [hnext, making]
      · simp [hnext, early]
      · intro u hu
        rw [hd]
        exact Function.update_of_ne hu ..
      · simp [hnext, untried]
    | leaves hzero =>
      rw [hretries rfl] at hzero
      exact absurd hzero (by decide)
    | some | empty =>
      apply hs.quiet h
      · simp [hd]
      · simp [hd]
      · simp [hnext, making]
      · simp [hnext, early]
      · exact fun _ _ => by rw [hd]
      · simp [hnext, untried]
    | remove => exact absurd rfl hC.1
    | count | stamp | respond => simp [early] at hearly

/-- The `prev` of the first connection is null, and becomes `first`. -/
theorem Filling.remove_fault (hs : Filling s) : (remove t s.data).fault = true := by
  unfold remove
  split
  next => rfl
  next n hn => rw [hs.noPrev n hn]

theorem Filling.not_served (hs : Filling s) (h : s.step code (.run t call woken) = some s')
    (hC : ¬(s.pc t ≠ .servlet .remove ∧ (s.pc t = .gate .calloc → call.memory = true))) :
    ¬Served s' := by
  intro hserved
  have hfault := hserved.noFault
  obtain ⟨next, -, ⟨hn, -⟩ | he⟩ := step_effect h
  · by_cases hp : s.pc t = .servlet .remove
    · simp [hp, Instr.next?] at hn
    · have hp : s.pc t = .gate .calloc := not_not.mp fun hne => hC ⟨hp, fun he => absurd he hne⟩
      simp [hp, Instr.next?] at hn
  · generalize s.pc t = p at he hC
    generalize s'.data = d' at he hfault
    cases he with
    | remove => simp [hs.remove_fault] at hfault
    | noMemory => simp [callocFails] at hfault
    | calloc hmemory => simp [hmemory] at hC
    | fill | insert | retry | leaves | some | empty | count | stamp | respond => simp at hC

end Run

theorem filling {pc : τ → Pc} (hpc : ∀ t, Entry (pc t)) {s : State τ}
    (h : Reaches (Machine.step code) Spares (init pc) s) : Filling s := by
  apply h.invariant
  · have hcarried : ∀ t, carried pc (start τ) t = none := by
      intro t
      rcases hpc t with h | h <;> simp [carried, h, making]
    refine ⟨made_start hcarried, fun t n hn => ⟨rfl, rfl⟩, rfl, rfl, fun n hn => rfl, ⟨rfl, rfl, rfl⟩,
      fun t => ?_, fun t _ => rfl⟩
    rcases hpc t with h | h <;> simp [init, Machine.start, h, early]
  · intro s e s' hs hc he
    cases e with
    | spurious c t =>
      obtain ⟨-, rfl⟩ := step_spurious he
      exact ⟨hs.made, hs.blank, hs.links, hs.last, hs.noPrev, hs.kept, hs.unserved, hs.retries⟩
    | run t call woken => exact hs.run he hc

/-- The connections are served as they should be until a servlet removes one or `calloc` fails; that
step follows a null pointer. -/
theorem served_until_removal {pc : τ → Pc} (hpc : ∀ t, Entry (pc t)) {s : State τ}
    (h : Reaches (Machine.step code) Spares (init pc) s) :
    Served s ∧ ∀ e s', s.step code e = some s' → ¬Spares s e → ¬Served s' := by
  have hs := filling hpc h
  refine ⟨hs.served, fun e s' he hC => ?_⟩
  cases e with
  | spurious c t => exact absurd trivial hC
  | run t call woken => exact hs.not_served he hC

abbrev go (t : τ) : Step τ := .run t ⟨0, true⟩ ∅

abbrev pair (t : Fin 2) : Pc := if t.val = 0 then .gate .calloc else .servlet .lock

/-- Two connections wait, and the servlet is about to remove the first. -/
theorem served_before_removal : ∃ s, Reaches (Machine.step code) Spares (init pair) s ∧
    (s.data.queued.length = 2 ∧ s.pc 1 = .servlet .remove) ∧ Served s := by
  have run : ∃ s, Reaches (Machine.step code) Spares (init pair) s ∧
      s.data.queued.length = 2 ∧ s.pc 1 = .servlet .remove :=
    exists_reaches (List.replicate 12 (go 0) ++ List.replicate 3 (go 1)) (by decide)
  obtain ⟨s, hs, hp⟩ := run
  exact ⟨s, hs, hp, (served_until_removal (by decide) hs).1⟩

/-- The first connection that is removed ends the server. -/
theorem removal_follows_null : ∃ s, Reaches (Machine.step code) (fun _ _ => True) (init pair) s ∧
    ¬Served s := by
  have run : ∃ s, Reaches (Machine.step code) (fun _ _ => True) (init pair) s ∧
      s.data.fault = true :=
    exists_reaches (List.replicate 6 (go 0) ++ List.replicate 4 (go 1)) (by decide)
  obtain ⟨s, hs, hfault⟩ := run
  refine ⟨s, hs, fun h => ?_⟩
  have hno := h.noFault
  simp [hfault] at hno

end ConnectQueue

end TcpAndParallel
