import ZAssembler.Proofs.Growth
import ZAssembler.Proofs.Lasting

/-
  The settled walks of the final pass, one after the other. Together they read every node before the
  end of the program once, in order, and how far the pass has come (`Mark`) is handed from each of
  their visits to the next: what was counted and collected by a walk that was repeated is taken back
  before the next one begins. So a fact about what one node adds to the mark gives what the whole
  program adds (`FinalPass.Makes.thread`).
-/

namespace ZAssembler.Assembly

/-! ## The nodes of a program -/

theorem nodes_sections (nodes : List Node) :
    (Program.sections nodes).1 ++ (Program.sections nodes).2.flatMap Routine.nodes = nodes := by
  induction nodes with
  | nil => rfl
  | cons n rest ih =>
    unfold Program.sections
    dsimp only
    split
    · rw [List.nil_append, List.flatMap_cons, Routine.nodes, List.cons_append, ih]
    · rw [List.cons_append, ih]

def Program.beforeEnd (nodes : List Node) : List Node := nodes.takeWhile (!Program.endsProgram ·)

/-- A pass walks the nodes before the end of the program. -/
theorem nodes_ofNodes (nodes : List Node) :
    (Program.ofNodes nodes).nodes = Program.beforeEnd nodes :=
  nodes_sections _

theorem map_visits {cx : Context} {index : Nat} {nodes : List Node} {s t : State}
    (h : visitAll cx index nodes s = .ok () t) :
    (visits cx index nodes s).map Visit.node = nodes := by
  induction nodes generalizing index s with
  | nil => rfl
  | cons n rest ih =>
    obtain ⟨⟨⟩, u, hn, hrest⟩ := bind_ok h
    rw [visits, hn, List.map_cons, ih hrest]

/-! ## Threads -/

/-- Visits that hand on the mark, from `a` before the first to `b` after the last. -/
inductive Thread : Mark → List Visit → Mark → Prop
  | nil (a : Mark) : Thread a [] a
  | cons (v : Visit) {vs : List Visit} {b : Mark} (rest : Thread v.after.mark vs b) :
    Thread v.before.mark (v :: vs) b

theorem Thread.append {a b c : Mark} {vs ws : List Visit} (h : Thread a vs b) (h' : Thread b ws c) :
    Thread a (vs ++ ws) c := by
  induction h with
  | nil a => exact h'
  | cons v _ ih => exact .cons v (ih h')

/-- What came before a visit of a thread and what comes after it. -/
theorem Thread.split {a b : Mark} {front back : List Visit} {v : Visit}
    (h : Thread a (front ++ v :: back) b) :
    Thread a front v.before.mark ∧ Thread v.after.mark back b := by
  induction front generalizing a with
  | nil =>
    cases h with
    | cons _ rest => exact ⟨.nil _, rest⟩
  | cons w front ih =>
    cases h with
    | cons _ rest =>
      obtain ⟨hfront, hback⟩ := ih rest
      exact ⟨.cons w hfront, hback⟩

/-- What every visit of a thread keeps holds at its end. -/
theorem Thread.keeps {P : Mark → Prop} {a b : Mark} {vs : List Visit} (h : Thread a vs b)
    (hkeep : ∀ v ∈ vs, P v.before.mark → P v.after.mark) (ha : P a) : P b := by
  induction h with
  | nil a => exact ha
  | cons v _ ih =>
    have hv := hkeep v List.mem_cons_self ha
    exact ih (fun w hw => hkeep w (List.mem_cons_of_mem _ hw)) hv

theorem Reads.thread {cx : Context} {s t : State} {vs : List Visit} (h : Reads cx s vs t) :
    Thread s.mark vs t.mark := by
  induction h with
  | nil s => exact .nil _
  | @cons s u t vs index n _ _ ih => exact .cons ⟨index, n, s.reach index n, u⟩ ih

/-! ## Settled walks -/

/-- The visits of the settled walks among `walks`. -/
def settledVisits (walks : List Walk) : List Visit :=
  (walks.filter Walk.settled).flatMap Walk.visits

theorem settledVisits_append (walks walks' : List Walk) :
    settledVisits (walks ++ walks') = settledVisits walks ++ settledVisits walks' := by
  unfold settledVisits
  rw [List.filter_append, List.flatMap_append]

theorem settledVisits_settled (vs : List Visit) (finish left : State) (walks : List Walk) :
    settledVisits (⟨vs, finish, some left⟩ :: walks) = vs ++ settledVisits walks := by
  unfold settledVisits
  rw [List.filter_cons_of_pos rfl, List.flatMap_cons]

theorem settledVisits_repeated (vs : List Visit) (finish : State) (walks : List Walk) :
    settledVisits (⟨vs, finish, none⟩ :: walks) = settledVisits walks := by
  unfold settledVisits
  rw [List.filter_cons_of_neg Bool.false_ne_true]

theorem mem_settledVisits {walks : List Walk} {v : Visit} :
    v ∈ settledVisits walks ↔ ∃ w ∈ walks, w.settled = true ∧ v ∈ w.visits := by
  simp only [settledVisits, List.mem_flatMap, List.mem_filter, and_assoc]

theorem Left.mark {scope : RoutineScope} {s t : State} (h : Left scope s t) : t.mark = s.mark := by
  obtain ⟨log, counts, rfl⟩ := h.eq
  rfl

theorem GoesOn.mark {cx : Context} (hm : cx.mode = .assembling) {s t : State} (h : GoesOn cx s t) :
    t.mark = s.mark := by
  rcases h with ⟨-, rfl⟩ | ⟨scope, -, -, hclose⟩
  · rfl
  · exact (closeRoutine_ok hm hclose).mark

section Walks

variable {cx : Context} (hm : cx.mode = .assembling) {start : Nat} {r : Routine} {opened : State}

include hm

/-- The walks that begin with one that was read to its end: the last of them goes on from the mark
    of the state in which the pass came to the routine. -/
theorem endedWalks_thread {s u t : State} (hgrows : Grows (opened.enter start r) u)
    (hmark : s.mark = opened.mark) (hvisits : visitAll cx start r.nodes s = .ok () u)
    {again : Option (Pass Unit)} (hend : endWalk cx again u = .ok () t) {walks : State → List Walk}
    (hagain : ∀ walk s', again = some walk → walk s' = .ok () t →
      Grows (opened.enter start r) s' → s'.mark = opened.mark →
      Thread opened.mark (settledVisits (walks s')) t.mark ∧
        (settledVisits (walks s')).map Visit.node = r.nodes) :
    Thread opened.mark
        (settledVisits (endedWalks cx (visits cx start r.nodes s) u walks)) t.mark ∧
      (settledVisits (endedWalks cx (visits cx start r.nodes s) u walks)).map Visit.node =
        r.nodes := by
  rcases endWalk_walks (visits cx start r.nodes s) walks hend with
    ⟨hgoes, heq⟩ | ⟨scope, next, walk, hscope, hnext, hwalk, ht, heq⟩
  · have hlast : settledVisits (endedWalks cx (visits cx start r.nodes s) u walks) =
        visits cx start r.nodes s := by
      rw [heq, settledVisits_settled]
      exact List.append_nil _
    rw [hlast, hgoes.mark hm, ← hmark]
    exact ⟨(visitAll_reads start r.nodes hvisits).thread, map_visits hvisits⟩
  · rw [heq, settledVisits_repeated]
    exact hagain walk _ hwalk ht (walkAgain_grows hgrows hscope hnext)
      (walkAgain_mark hgrows hscope hnext)

theorem walkRoutine_thread {left : Nat} {s t : State} (hgrows : Grows (opened.enter start r) s)
    (hmark : s.mark = opened.mark) (h : walkRoutine cx start r left s = .ok () t) :
    Thread opened.mark (settledVisits (routineWalks cx start r left s)) t.mark ∧
      (settledVisits (routineWalks cx start r left s)).map Visit.node = r.nodes := by
  induction left generalizing s with
  | zero =>
    obtain ⟨⟨⟩, u, hvisits, hend⟩ := bind_ok h
    have hgrown := hgrows.trans ((visitAll_onward cx start r.nodes s).of_ok hvisits).grows
    unfold routineWalks
    rw [hvisits]
    exact endedWalks_thread hm hgrown hmark hvisits hend fun walk s' hnone => by cases hnone
  | succ left ih =>
    obtain ⟨⟨⟩, u, hvisits, hend⟩ := bind_ok h
    have hgrown := hgrows.trans ((visitAll_onward cx start r.nodes s).of_ok hvisits).grows
    unfold routineWalks
    rw [hvisits]
    refine endedWalks_thread hm hgrown hmark hvisits hend fun walk s' hwalk ht hs' hmark' => ?_
    cases hwalk
    exact ih hs' hmark' ht

theorem routines_thread {rs : List Routine} {start next : Nat} {s t : State}
    (h : routines cx start rs s = .ok next t) :
    Thread s.mark (settledVisits (routinesWalks cx start rs s)) t.mark ∧
      (settledVisits (routinesWalks cx start rs s)).map Visit.node = rs.flatMap Routine.nodes := by
  induction rs generalizing start s with
  | nil =>
    cases h
    exact ⟨.nil _, rfl⟩
  | cons r rest ih =>
    obtain ⟨⟨⟩, u, hfirst, hrest⟩ := bind_ok h
    have hwalks : walkRoutine cx start r maxWalks (s.enter start r) = .ok () u := hfirst
    have hentered : Grows (s.enter start r) (s.enter start r) :=
      grows_of_mark rfl fun a ha => ⟨a, ha, rfl⟩
    obtain ⟨hthread, hnodes⟩ := walkRoutine_thread hm hentered rfl hwalks
    obtain ⟨hthread', hnodes'⟩ := ih hrest
    unfold routinesWalks
    rw [hfirst]
    dsimp only
    rw [settledVisits_append, List.map_append, List.flatMap_cons, hnodes, hnodes']
    exact ⟨hthread.append hthread', rfl⟩

theorem pass_thread {program : Program} {s t1 t2 : State} {index : Nat}
    (hpreamble : visitAll cx 0 program.preamble s = .ok () t1)
    (hroutines : routines cx program.preamble.length program.routines t1 = .ok index t2) :
    Thread s.mark (settledVisits (passWalks cx program s)) t2.mark ∧
      (settledVisits (passWalks cx program s)).map Visit.node = program.nodes := by
  obtain ⟨hthread, hnodes⟩ := routines_thread hm hroutines
  have hwalks : settledVisits (passWalks cx program s) = visits cx 0 program.preamble s ++
      settledVisits (routinesWalks cx program.preamble.length program.routines t1) := by
    unfold passWalks
    rw [hpreamble]
    exact settledVisits_settled _ _ _ _
  rw [hwalks, List.map_append, hnodes, map_visits hpreamble]
  exact ⟨(visitAll_reads 0 _ hpreamble).thread.append hthread, rfl⟩

end Walks

/-- The visits of the settled walks of a pass. -/
def FinalPass.settledVisits (p : FinalPass) : List Visit := Assembly.settledVisits p.walks

/-- The settled visits of the final pass hand on the mark from its beginning to its end, and read
    the nodes before the end of the program. -/
theorem FinalPass.Makes.thread {p : FinalPass} {o : Options} {nodes : List Node}
    {story : AssembledStory} (h : p.Makes o nodes story) :
    ∃ t, Thread p.start.mark p.settledVisits t.mark ∧ Ended t p.finish ∧
      p.settledVisits.map Visit.node = Program.beforeEnd nodes := by
  have hends := h.ends
  rw [h.program] at hends
  obtain ⟨t1, t2, index, hpreamble, hroutines, hended⟩ := pass_parts h.mode hends
  obtain ⟨hthread, hnodes⟩ := pass_thread h.mode hpreamble hroutines
  rw [← nodes_ofNodes, ← hnodes]
  unfold FinalPass.settledVisits FinalPass.walks
  rw [h.program]
  exact ⟨t2, hthread, hended, rfl⟩

/-- The thread before and after a settled visit. -/
theorem FinalPass.Makes.thread_at {p : FinalPass} {o : Options} {nodes : List Node}
    {story : AssembledStory} (h : p.Makes o nodes story) {v : Visit} (hv : v ∈ p.settledVisits) :
    ∃ front back t, Thread p.start.mark front v.before.mark ∧ Thread v.after.mark back t.mark ∧
      Ended t p.finish ∧ (∀ w ∈ front, w ∈ p.settledVisits) ∧ ∀ w ∈ back, w ∈ p.settledVisits := by
  obtain ⟨t, hthread, hended, -⟩ := h.thread
  obtain ⟨front, back, hsplit⟩ := List.append_of_mem hv
  rw [hsplit] at hthread
  obtain ⟨hfront, hback⟩ := hthread.split
  exact ⟨front, back, t, hfront, hback, hended, fun w hw => by simp [hsplit, hw],
    fun w hw => by simp [hsplit, hw]⟩

end ZAssembler.Assembly
