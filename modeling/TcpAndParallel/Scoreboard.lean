import TcpAndParallel.BubbleSort
import TcpAndParallel.QuickFit

namespace TcpAndParallel

namespace QuickFit

/-- The sizes and their counts on a board whose entries are linked in order, as `mem_init` means
to link them. -/
def linked (content : Fin boardSize → UInt32 × Int32) (i : Fin boardSize) : Score where
  sNext := if h : i.val + 1 < boardSize then some ⟨i.val + 1, h⟩ else none
  sLen := (content i).1
  sReq := (content i).2

def requests (entry : UInt32 × Int32) : Int := entry.2.toInt

def withTail (content : Fin boardSize → UInt32 × Int32) (i : Fin boardSize) : UInt32 × Int32 :=
  if boardSize - 3 ≤ i.val ∧ i.val < boardSize - 1 then (0, 0) else content i

theorem update_linked {content : Fin boardSize → UInt32 × Int32} {a b : Fin boardSize} (hab : a ≠ b) :
    Function.update (Function.update (linked content) a
      { linked content a with sLen := (linked content b).sLen, sReq := (linked content b).sReq }) b
      { linked content b with sLen := (linked content a).sLen, sReq := (linked content a).sReq } =
    linked (content ∘ Equiv.swap a b) := by
  funext i
  by_cases hb : i = b
  · subst hb
    simp [linked]
  · rw [Function.update_of_ne hb]
    by_cases ha : i = a
    · subst ha
      simp [linked]
    · rw [Function.update_of_ne ha]
      simp [linked, Equiv.swap_apply_of_ne_of_ne ha hb]

theorem sortStep_linked (content : Fin boardSize → UInt32 × Int32) {m : Nat} (hm : m + 1 < boardSize) :
    sortStep (linked content) ⟨m, by omega⟩ =
      .ok (linked (BubbleSort.exchange requests content m)) := by
  have hnext : (linked content ⟨m, by omega⟩).sNext = some ⟨m + 1, hm⟩ := dif_pos hm
  have hlt : (linked content ⟨m, by omega⟩).sReq < (linked content ⟨m + 1, hm⟩).sReq ↔
      requests (content ⟨m, by omega⟩) < requests (content ⟨m + 1, hm⟩) := Int32.lt_iff_toInt_lt
  have hne : (⟨m, by omega⟩ : Fin boardSize) ≠ ⟨m + 1, hm⟩ := by simp
  unfold BubbleSort.exchange
  simp only [sortStep, hnext, deref, bind, Except.bind, hlt, hm, dite_true]
  split
  next =>
    rw [← update_linked hne, Function.update_of_ne hne.symm]
    simp only [hnext]
  next => rfl

theorem pass_linked (content : Fin boardSize → UInt32 × Int32) {m : Nat} (hm : m < boardSize) :
    ((List.finRange boardSize).take m).foldlM sortStep (linked content) =
      .ok (linked (BubbleSort.pass requests m content)) := by
  induction m with
  | zero => rfl
  | succ m ih =>
    have htake : (List.finRange boardSize).take (m + 1) =
        (List.finRange boardSize).take m ++ [⟨m, by omega⟩] := by
      rw [List.take_add_one]
      simp [show m < boardSize by omega]
    rw [htake, List.foldlM_append, ih (by omega), BubbleSort.pass_succ]
    have hstep := sortStep_linked (BubbleSort.pass requests m content) hm
    simp only [bind, Except.bind, List.foldlM_cons, List.foldlM_nil, hstep]
    rfl

theorem emptyTail_linked (content : Fin boardSize → UInt32 × Int32) :
    emptyTail (linked content) = linked (withTail content) := by
  funext i
  by_cases hi : boardSize - 3 ≤ i.val ∧ i.val < boardSize - 1
  · simp only [emptyTail, withTail, linked, if_pos hi]
  · simp only [emptyTail, withTail, linked, if_neg hi]

/-- `sort` ranks the entries, and then resets the third and the second of the last. -/
theorem sort_linked (content : Fin boardSize → UInt32 × Int32) :
    sort (linked content) = .ok (linked (withTail (BubbleSort.sorted requests content))) := by
  have main : ∀ p, (List.range p).foldlM (fun score _ =>
      ((List.finRange boardSize).take (boardSize - 1)).foldlM sortStep score) (linked content) =
        .ok (linked ((List.range p).foldl (fun f _ => BubbleSort.pass requests (boardSize - 1) f) content)) := by
    intro p
    induction p with
    | zero => rfl
    | succ p ih =>
      rw [List.range_succ, List.foldlM_append, ih, List.foldl_append]
      have hpass := fun f => pass_linked f (show boardSize - 1 < boardSize by decide)
      simp only [bind, Except.bind, List.foldlM_cons, List.foldlM_nil, hpass, pure, Except.pure,
        List.foldl_cons, List.foldl_nil]
  simp only [sort, main boardSize, bind, Except.bind, emptyTail_linked]
  rfl

/-- The counts descend, and the board shows the highest ranks of the given entries, each size with
its own count; the three lowest are reset. -/
structure Ranked (content result : Fin boardSize → UInt32 × Int32) : Prop where
  descending : ∀ i j : Fin boardSize, i ≤ j → requests (result j) ≤ requests (result i)
  kept : ∃ ranking : Equiv.Perm (Fin boardSize),
    (∀ i j : Fin boardSize, i ≤ j → requests (content (ranking j)) ≤ requests (content (ranking i))) ∧
    (∀ i : Fin boardSize, i.val < boardSize - 3 → result i = content (ranking i)) ∧
    ∀ i : Fin boardSize, boardSize - 3 ≤ i.val → result i = (0, 0)

def Ranks (content : Fin boardSize → UInt32 × Int32) : Prop :=
  ∃ result, sort (linked content) = .ok (linked result) ∧ Ranked content result

theorem linked_injective {f g : Fin boardSize → UInt32 × Int32} (h : linked f = linked g) : f = g := by
  funext i
  have hi := congrFun h i
  simp only [linked, Score.mk.injEq, true_and] at hi
  exact Prod.ext hi.1 hi.2

/-- The last place is not reset, so that the entry which comes to it has to be empty. -/
theorem Ranks.last_empty {content : Fin boardSize → UInt32 × Int32} (h : Ranks content) :
    ∃ i, content i = (0, 0) ∧ BubbleSort.LastLeast requests (boardSize - 1) content i := by
  obtain ⟨result, he, -, ranking, -, -, reset⟩ := h
  rw [sort_linked] at he
  obtain rfl := linked_injective (Except.ok.inj he)
  obtain ⟨i, hi, hlast⟩ := BubbleSort.sorted_last (n := boardSize - 1) requests content
  refine ⟨i, ?_, hi⟩
  rw [← hlast]
  have h19 := reset (Fin.last (boardSize - 1)) (by decide)
  unfold withTail at h19
  rw [if_neg (by decide)] at h19
  exact h19

theorem withTail_of_empty {f : Fin boardSize → UInt32 × Int32}
    (empty : f (Fin.last (boardSize - 1)) = (0, 0)) (j : Fin boardSize) :
    withTail f j = if j.val < boardSize - 3 then f j else (0, 0) := by
  unfold withTail
  by_cases hj : j.val < boardSize - 3
  · rw [if_pos hj, if_neg (by omega)]
  · rw [if_neg hj]
    split
    next => rfl
    next hout =>
      have hlast : j = Fin.last (boardSize - 1) := by
        refine Fin.ext ?_
        have hj' := j.isLt
        show j.val = boardSize - 1
        omega
      rw [hlast]
      exact empty

theorem ranked_of_empty {content : Fin boardSize → UInt32 × Int32}
    (empty : BubbleSort.sorted requests content (Fin.last (boardSize - 1)) = (0, 0))
    (least : ∀ j, 0 ≤ requests (content j)) :
    Ranked content (withTail (BubbleSort.sorted requests content)) := by
  have hresult := withTail_of_empty empty
  have hdesc := BubbleSort.sorted_antitone requests content
  obtain ⟨ranking, he⟩ := BubbleSort.sorted_perm requests content
  have hpairs : ∀ j, BubbleSort.sorted requests content j = content (ranking j) := congrFun he
  refine ⟨fun a b hab => ?_, ranking, ?_, fun j hj => ?_, fun j hj => ?_⟩
  · simp only [hresult]
    by_cases hb : b.val < boardSize - 3
    · have ha : a.val < boardSize - 3 := Nat.lt_of_le_of_lt hab hb
      rw [if_pos ha, if_pos hb]
      exact hdesc hab
    · rw [if_neg hb]
      split
      next =>
        rw [hpairs]
        exact least (ranking a)
      next => exact le_rfl
  · intro i j hij
    simpa only [hpairs] using hdesc hij
  · rw [hresult, if_pos hj, hpairs]
  · rw [hresult, if_neg (by omega)]

theorem sorted_last_of_empty {content : Fin boardSize → UInt32 × Int32} {i : Fin boardSize}
    (hi : content i = (0, 0)) (least : ∀ j, 0 ≤ requests (content j))
    (last : ∀ j, i < j → 0 < requests (content j)) :
    BubbleSort.sorted requests content (Fin.last (boardSize - 1)) = (0, 0) := by
  obtain ⟨k, ⟨-, hleast, hlast⟩, hk⟩ := BubbleSort.sorted_last (n := boardSize - 1) requests content
  have hreq : requests (content i) = 0 := by
    rw [hi]
    rfl
  have hki : k = i := by
    rcases lt_trichotomy k i with hlt | heq | hgt
    · exact absurd (least k) (not_le.mpr (hreq ▸ hlast i hlt (Nat.le_pred_of_lt i.isLt)))
    · exact heq
    · exact absurd (hleast i (Nat.le_pred_of_lt i.isLt)) (not_le.mpr (hreq ▸ last k hgt))
  rw [hki] at hk
  exact hk.trans hi

/-- The board is ranked if and only if the last of the entries with the fewest requests is an empty
one. -/
theorem ranks_iff (content : Fin boardSize → UInt32 × Int32) :
    Ranks content ↔ ∃ i, content i = (0, 0) ∧ (∀ j, 0 ≤ (content j).2) ∧ ∀ j, i < j → 0 < (content j).2 := by
  have hzero : (0 : Int32).toInt = 0 := rfl
  simp only [Int32.le_iff_toInt_le, Int32.lt_iff_toInt_lt, hzero]
  constructor
  · intro h
    obtain ⟨i, hi, -, least, last⟩ := h.last_empty
    have hreq : requests (content i) = 0 := by
      rw [hi]
      rfl
    rw [hreq] at least last
    exact ⟨i, hi, fun j => least j (Nat.le_pred_of_lt j.isLt), fun j hij => last j hij (Nat.le_pred_of_lt j.isLt)⟩
  · rintro ⟨i, hi, least, last⟩
    exact ⟨_, sort_linked content, ranked_of_empty (sorted_last_of_empty hi least last) least⟩

/-- With every entry in use the count rises again behind the entries that were reset. -/
theorem count_rises_at_end :
    (∃ result, sort (linked fun i => (44032 + i.val.toUInt32, if i.val = 0 then 4 else 1)) =
      .ok (linked result) ∧ requests (result ⟨18, by decide⟩) < requests (result ⟨19, by decide⟩)) ∧
    ¬Ranks fun i => (44032 + i.val.toUInt32, if i.val = 0 then 4 else 1) := by
  have hpos : ∀ i : Fin boardSize, 0 < (if i.val = 0 then 4 else 1 : Int32).toInt := by
    intro i
    split <;> decide
  constructor
  · refine ⟨_, sort_linked _, ?_⟩
    obtain ⟨ranking, he⟩ := BubbleSort.sorted_perm requests
      fun i : Fin boardSize => (44032 + i.val.toUInt32, if i.val = 0 then 4 else 1)
    unfold withTail
    rw [if_pos (by decide), if_neg (by decide), he]
    exact hpos (ranking ⟨19, by decide⟩)
  · intro h
    obtain ⟨i, hi, -⟩ := h.last_empty
    have hreq : (if i.val = 0 then 4 else 1 : Int32) = 0 := congrArg Prod.snd hi
    have hlt := hpos i
    rw [hreq] at hlt
    exact absurd hlt (by decide)

end QuickFit

end TcpAndParallel
