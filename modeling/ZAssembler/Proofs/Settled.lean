import ZAssembler.Proofs.Moves

/-
  Settled walks. What follows a settled walk is about later nodes, so that nothing in it goes back
  behind the walk: `pass_settled` places a settled walk in its pass, and `mem_passWalks` numbers the
  visits of a pass as the program numbers its nodes.
-/

namespace ZAssembler.Assembly

/-! ## Numbers of nodes -/

def Routine.nodes (r : Routine) : List Node := r.head :: r.body

/-- The nodes that a pass walks, in order. -/
def Program.nodes (p : Program) : List Node := p.preamble ++ p.routines.flatMap Routine.nodes

theorem mem_endedWalks {cx : Context} {vs : List Visit} {s : State} {walks : State → List Walk}
    {w : Walk} (h : w ∈ endedWalks cx vs s walks) :
    w.visits = vs ∨ ∃ next, w ∈ walks (s.walkAgain next) := by
  unfold endedWalks at h
  split at h
  · exact .inl (by rw [List.mem_singleton.mp h])
  · split at h
    · split at h
      · exact .inl (by rw [List.mem_singleton.mp h])
      · cases h
    · split at h
      · rcases List.mem_cons.mp h with rfl | h
        · exact .inl rfl
        · exact .inr ⟨_, h⟩
      · cases h

/-- A walk of a routine reads its nodes from a state inside the routine. -/
theorem mem_routineWalks {cx : Context} {start : Nat} {r : Routine} {left : Nat} {s : State}
    {w : Walk} (h : w ∈ routineWalks cx start r left s) (hs : s.scope.isSome = true) :
    ∃ t, t.scope.isSome = true ∧ w.visits = visits cx start r.nodes t := by
  induction left generalizing s with
  | zero =>
    unfold routineWalks at h
    split at h
    · rcases mem_endedWalks h with hv | ⟨next, hnext⟩
      · exact ⟨s, hs, hv⟩
      · cases hnext
    · cases h
  | succ left ih =>
    unfold routineWalks at h
    split at h
    · rcases mem_endedWalks h with hv | ⟨next, hnext⟩
      · exact ⟨s, hs, hv⟩
      · exact ih hnext rfl
    · cases h

theorem mem_routinesWalks {cx : Context} {start : Nat} {rs : List Routine} {s : State} {w : Walk}
    (h : w ∈ routinesWalks cx start rs s) {v : Visit} (hv : v ∈ w.visits) :
    start ≤ v.index ∧ (rs.flatMap Routine.nodes)[v.index - start]? = some v.node := by
  induction rs generalizing start s with
  | nil => cases h
  | cons r rest ih =>
    unfold routinesWalks at h
    rw [List.flatMap_cons]
    have hlength : r.nodes.length = 1 + r.body.length := by
      rw [Routine.nodes, List.length_cons, Nat.add_comm]
    split at h
    · rcases List.mem_append.mp h with h | h
      · obtain ⟨t, -, ht⟩ := mem_routineWalks h rfl
        obtain ⟨hindex, hnode⟩ := mem_visits (ht ▸ hv)
        refine ⟨hindex, ?_⟩
        obtain ⟨hlt, -⟩ := List.getElem?_eq_some_iff.mp hnode
        rw [List.getElem?_append_left hlt, hnode]
      · obtain ⟨hindex, hnode⟩ := ih h
        refine ⟨by omega, ?_⟩
        rw [List.getElem?_append_right (by omega), ← hnode]
        congr 1
        omega
    · cases h

theorem visits_of_mem_routinesWalks {cx : Context} {start : Nat} {rs : List Routine} {s : State}
    {w : Walk} (h : w ∈ routinesWalks cx start rs s) :
    ∃ index nodes t, t.scope.isSome = true ∧ w.visits = visits cx index nodes t := by
  induction rs generalizing start s with
  | nil => cases h
  | cons r rest ih =>
    unfold routinesWalks at h
    split at h
    · rcases List.mem_append.mp h with h | h
      · exact ⟨start, r.nodes, mem_routineWalks h rfl⟩
      · exact ih h
    · cases h

/-- The nodes of a program are numbered in order, however often they are visited. -/
theorem mem_passWalks {cx : Context} {program : Program} {s : State} {w : Walk}
    (h : w ∈ passWalks cx program s) {v : Visit} (hv : v ∈ w.visits) :
    program.nodes[v.index]? = some v.node := by
  unfold passWalks at h
  unfold Program.nodes
  split at h
  · rcases List.mem_cons.mp h with rfl | h
    · obtain ⟨-, hnode⟩ := mem_visits hv
      rw [Nat.sub_zero] at hnode
      obtain ⟨hlt, -⟩ := List.getElem?_eq_some_iff.mp hnode
      rw [List.getElem?_append_left hlt, hnode]
    · obtain ⟨hindex, hnode⟩ := mem_routinesWalks h hv
      rw [List.getElem?_append_right hindex, hnode]
  · cases h

def Moment.visit? : Moment → Option Visit
  | .visit v => some v
  | .leave _ _ => none

theorem filterMap_moments (w : Walk) : w.moments.filterMap Moment.visit? = w.visits := by
  have hvisits : (w.visits.map Moment.visit).filterMap Moment.visit? = w.visits := by
    rw [List.filterMap_map]
    exact List.filterMap_some
  unfold Walk.moments
  rw [List.filterMap_append, hvisits]
  split
  · split
    · exact List.append_nil _
    · exact List.append_nil _
  · exact List.append_nil _

theorem visit_mem_moments {w : Walk} {v : Visit} : .visit v ∈ w.moments ↔ v ∈ w.visits := by
  rw [← filterMap_moments w, List.mem_filterMap]
  refine ⟨fun h => ⟨_, h, rfl⟩, ?_⟩
  rintro ⟨m, hm, hv⟩
  cases m with
  | visit x =>
    cases hv
    exact hm
  | leave s t => cases hv

theorem index_of_mem_moments {walks : List Walk} {n : Nat}
    (h : ∀ w ∈ walks, ∀ v ∈ w.visits, n ≤ v.index) {v : Visit}
    (hv : .visit v ∈ walks.flatMap Walk.moments) : n ≤ v.index := by
  obtain ⟨w, hw, hv⟩ := List.mem_flatMap.mp hv
  exact h w hw v (visit_mem_moments.mp hv)

/-! ## Settled walks -/

/-- The pass goes on from the end of a settled walk. -/
def GoesOn (cx : Context) (finish left : State) : Prop :=
  (finish.scope = none ∧ left = finish) ∨
  ∃ scope, finish.scope = some scope ∧ scope.moved = false ∧
    closeRoutine cx scope finish = .ok () left

/-- How the walk of a routine, or of the nodes before the first, begins. -/
inductive Begins (rs : List Routine) : List Node → State → Prop
  | preamble {nodes : List Node} {s : State} (hs : s.scope = none) : Begins rs nodes s
  | routine {s : State} (r : Routine) (scope : RoutineScope) (hr : r ∈ rs)
    (hs : s.scope = some scope) (hlabels : scope.labels = r.body.filterMap Node.localLabel?)
    (hmoved : scope.moved = false) : Begins rs r.nodes s

/-- Where a walk stands in its pass: its nodes and their first number, what happened before it and
    after it, and the states in which it began and was left. -/
structure Place where
  start : Nat
  nodes : List Node
  earlier : List Moment
  entry : State
  exit : State
  later : List Moment

/-- The place in a pass of which more came before. -/
def Place.follow (p : Place) (l : List Moment) : Place := { p with earlier := l ++ p.earlier }

/-- The place in a pass that went on. -/
def Place.extend (p : Place) (l : List Moment) : Place := { p with later := p.later ++ l }

/-- The place of a settled walk in a pass from `s` to `t`; what comes later is about later nodes. -/
structure Settled (cx : Context) (rs : List Routine) (s : State) (all : List Moment) (t : State)
    (w : Walk) (p : Place) : Prop where
  moments : all = p.earlier ++ (w.moments ++ p.later)
  before : Moves cx s p.earlier p.entry
  begins : Begins rs p.nodes p.entry
  reads : visitAll cx p.start p.nodes p.entry = .ok () w.finish
  visits : w.visits = Assembly.visits cx p.start p.nodes p.entry
  left : w.left = some p.exit
  goesOn : GoesOn cx w.finish p.exit
  after : Moves cx p.exit p.later t
  index : ∀ v, .visit v ∈ p.later → p.start + p.nodes.length ≤ v.index

theorem Settled.follow {cx : Context} {rs : List Routine} {s s' t : State} {all l : List Moment}
    {w : Walk} {p : Place} (h : Settled cx rs s all t w p) (hl : Moves cx s' l s) :
    Settled cx rs s' (l ++ all) t w (p.follow l) where
  moments := by
    rw [h.moments]
    simp only [Place.follow, List.append_assoc]
  before := hl.trans h.before
  begins := h.begins
  reads := h.reads
  visits := h.visits
  left := h.left
  goesOn := h.goesOn
  after := h.after
  index := h.index

theorem Settled.extend {cx : Context} {rs : List Routine} {s t t' : State} {all l : List Moment}
    {w : Walk} {p : Place} (h : Settled cx rs s all t w p) (hl : Moves cx t l t')
    (hi : ∀ v, .visit v ∈ l → p.start + p.nodes.length ≤ v.index) :
    Settled cx rs s (all ++ l) t' w (p.extend l) where
  moments := by
    rw [h.moments]
    simp only [Place.extend, List.append_assoc]
  before := h.before
  begins := h.begins
  reads := h.reads
  visits := h.visits
  left := h.left
  goesOn := h.goesOn
  after := h.after.trans hl
  index v hv := by
    rcases List.mem_append.mp hv with hv | hv
    · exact h.index v hv
    · exact hi v hv

/-- What follows a walk: it has settled and is the last of its routine, or it is walked again. -/
theorem endWalk_walks {cx : Context} (vs : List Visit) (walks : State → List Walk)
    {again : Option (Pass Unit)} {s t : State} (h : endWalk cx again s = .ok () t) :
    (GoesOn cx s t ∧ endedWalks cx vs s walks = [⟨vs, s, some t⟩]) ∨
    ∃ scope next walk, s.scope = some scope ∧ scope.nextWalk? = some next ∧ again = some walk ∧
      walk (s.walkAgain next) = .ok () t ∧
      endedWalks cx vs s walks = ⟨vs, s, none⟩ :: walks (s.walkAgain next) := by
  unfold endedWalks
  rcases endWalk_cases h with ⟨hs, rfl⟩ | ⟨scope, hs, hmoved, hclose⟩ |
    ⟨scope, next, walk, hs, hmoved, hnext, hwalk, ht⟩
  · refine .inl ⟨.inl ⟨hs, rfl⟩, ?_⟩
    rw [hs]
  · refine .inl ⟨.inr ⟨scope, hs, hmoved, hclose⟩, ?_⟩
    simp [hs, hmoved, hclose]
  · refine .inr ⟨scope, next, walk, hs, hnext, hwalk, ht, ?_⟩
    simp [hs, hmoved, hnext]

theorem nextWalk_continues {scope next : RoutineScope} (h : scope.nextWalk? = some next) :
    next.snapshot = scope.snapshot ∧ next.labels = scope.labels ∧ next.deferred = scope.deferred ∧
      next.moved = false := by
  unfold RoutineScope.nextWalk? at h
  split at h
  · cases h
  · cases h
    exact ⟨rfl, rfl, rfl, rfl⟩

/-- The state is one in which a walk of the routine begins. -/
def Entry (r : Routine) (s : State) : Prop :=
  ∃ scope, s.scope = some scope ∧ scope.labels = r.body.filterMap Node.localLabel? ∧
    scope.moved = false

theorem entry_walkAgain {cx : Context} (hm : cx.mode = .assembling) {r : Routine} {s t : State}
    {vs : List Visit} {scope next : RoutineScope} (hs : Entry r s) (hr : Reads cx s vs t)
    (ht : t.scope = some scope) (hnext : scope.nextWalk? = some next) :
    Entry r (t.walkAgain next) := by
  obtain ⟨first, hfirst, hlabels, -⟩ := hs
  obtain ⟨last, hlast, hcontinues⟩ := (hr.later hm).inside first hfirst
  obtain rfl : last = scope := by rw [ht] at hlast; exact (Option.some.inj hlast).symm
  obtain ⟨-, hnextLabels, -, hnextMoved⟩ := nextWalk_continues hnext
  refine ⟨next, rfl, ?_, hnextMoved⟩
  rw [hnextLabels, hcontinues.labels, hlabels]

section Routines

variable {cx : Context} (hm : cx.mode = .assembling) {rs : List Routine} {start : Nat} {r : Routine}

include hm

/-- A settled walk among those that begin with one that was read to its end. -/
theorem endedWalks_settled (hr : r ∈ rs) {s u t : State} (hs : Entry r s)
    (hvisits : visitAll cx start r.nodes s = .ok () u) {again : Option (Pass Unit)}
    (hend : endWalk cx again u = .ok () t) {walks : State → List Walk} {w : Walk}
    (hagain : ∀ walk s', again = some walk → walk s' = .ok () t → Entry r s' → w ∈ walks s' →
      ∃ p, p.start = start ∧ p.nodes = r.nodes ∧
        Settled cx rs s' ((walks s').flatMap Walk.moments) t w p)
    (hw : w ∈ endedWalks cx (visits cx start r.nodes s) u walks) (hset : w.settled = true) :
    ∃ p, p.start = start ∧ p.nodes = r.nodes ∧ Settled cx rs s
      ((endedWalks cx (visits cx start r.nodes s) u walks).flatMap Walk.moments) t w p := by
  have hreads := visitAll_reads start r.nodes hvisits
  rcases endWalk_walks (visits cx start r.nodes s) walks hend with
    ⟨hgoes, heq⟩ | ⟨scope, next, walk, hscope, hnext, hwalk, ht, heq⟩
  · rw [heq] at hw ⊢
    obtain rfl := List.mem_singleton.mp hw
    obtain ⟨scope, hscope, hlabels, hmoved⟩ := hs
    refine ⟨⟨start, r.nodes, [], s, t, []⟩, rfl, rfl, ?_⟩
    exact ⟨by simp, .refl s, .routine r scope hr hscope hlabels hmoved, hvisits, rfl, rfl, hgoes,
      .refl t, fun v hv => nomatch hv⟩
  · rw [heq] at hw ⊢
    rcases List.mem_cons.mp hw with rfl | hw
    · cases hset
    · obtain ⟨p, hp, hn, hp'⟩ :=
        hagain walk _ hwalk ht (entry_walkAgain hm hs hreads hscope hnext) hw
      have hbefore : Moves cx s ((visits cx start r.nodes s).map .visit) (u.walkAgain next) := by
        have := hreads.moves.trans (.again hscope hnext (.refl _))
        rwa [List.append_nil] at this
      have hmoments : (Walk.mk (visits cx start r.nodes s) u none).moments =
          (visits cx start r.nodes s).map .visit := by simp [Walk.moments]
      rw [List.flatMap_cons, hmoments]
      exact ⟨p.follow _, hp, hn, hp'.follow hbefore⟩

theorem walkRoutine_settled (hr : r ∈ rs) {left : Nat} {s t : State} (hs : Entry r s)
    (h : walkRoutine cx start r left s = .ok () t) {w : Walk}
    (hw : w ∈ routineWalks cx start r left s) (hset : w.settled = true) :
    ∃ p, p.start = start ∧ p.nodes = r.nodes ∧
      Settled cx rs s ((routineWalks cx start r left s).flatMap Walk.moments) t w p := by
  induction left generalizing s with
  | zero =>
    obtain ⟨⟨⟩, u, hvisits, hend⟩ := bind_ok h
    unfold routineWalks at hw ⊢
    rw [hvisits] at hw ⊢
    exact endedWalks_settled hm hr hs hvisits hend (fun walk s' hn => by cases hn) hw hset
  | succ left ih =>
    obtain ⟨⟨⟩, u, hvisits, hend⟩ := bind_ok h
    unfold routineWalks at hw ⊢
    rw [hvisits] at hw ⊢
    refine endedWalks_settled hm hr hs hvisits hend (fun walk s' hwalk ht hs' hw' => ?_) hw hset
    cases hwalk
    exact ih hs' ht hw'

theorem routines_settled {rs' : List Routine} (hrs : ∀ r ∈ rs', r ∈ rs) {start next : Nat}
    {s t : State} (hs : s.scope = none) (h : routines cx start rs' s = .ok next t) {w : Walk}
    (hw : w ∈ routinesWalks cx start rs' s) (hset : w.settled = true) :
    ∃ p, start ≤ p.start ∧
      Settled cx rs s ((routinesWalks cx start rs' s).flatMap Walk.moments) t w p := by
  induction rs' generalizing start s with
  | nil => cases hw
  | cons r rest ih =>
    obtain ⟨⟨⟩, u, hfirst, hrest⟩ := bind_ok h
    have hwalks : walkRoutine cx start r maxWalks (s.enter start r) = .ok () u := hfirst
    obtain ⟨hmoves, hout⟩ := walkRoutine_moves hm hwalks
    unfold routinesWalks at hw ⊢
    rw [hfirst] at hw ⊢
    dsimp only at hw ⊢
    rw [List.flatMap_append]
    have henter : Moves cx s [] (s.enter start r) := .enter start r hs (.refl _)
    rcases List.mem_append.mp hw with hw | hw
    · have hentry : Entry r (s.enter start r) := ⟨_, rfl, rfl, rfl⟩
      obtain ⟨p, hp, hn, hsettled⟩ :=
        walkRoutine_settled hm (hrs r List.mem_cons_self) hentry hwalks hw hset
      have hlater := (routines_moves hm hout hrest).1
      refine ⟨(p.follow []).extend _, Nat.le_of_eq hp.symm,
        (hsettled.follow henter).extend hlater fun v hv => ?_⟩
      have hindex := index_of_mem_moments (fun w hw v hv => (mem_routinesWalks hw hv).1) hv
      have hlength : p.nodes.length = 1 + r.body.length := by
        rw [hn, Routine.nodes, List.length_cons, Nat.add_comm]
      show p.start + p.nodes.length ≤ v.index
      omega
    · obtain ⟨p, hp, hsettled⟩ := ih (fun r hr => hrs r (List.mem_cons_of_mem _ hr)) hout hrest hw
      have hstart : start ≤ p.start := by omega
      exact ⟨p.follow _, hstart, hsettled.follow (.enter start r hs hmoves)⟩

/-- Every settled walk has its place in a pass that comes to its end. -/
theorem pass_settled {program : Program} {s t1 t2 : State} {index : Nat} (hs : s.scope = none)
    (hpreamble : visitAll cx 0 program.preamble s = .ok () t1)
    (hroutines : routines cx program.preamble.length program.routines t1 = .ok index t2) {w : Walk}
    (hw : w ∈ passWalks cx program s) (hset : w.settled = true) :
    ∃ p, Settled cx program.routines s ((passWalks cx program s).flatMap Walk.moments) t2 w p := by
  have hreads := visitAll_reads 0 _ hpreamble
  have hout := (hreads.later hm).outside hs
  have hmoves := (routines_moves hm hout hroutines).1
  unfold passWalks at hw ⊢
  rw [hpreamble] at hw ⊢
  dsimp only at hw ⊢
  rw [List.flatMap_cons]
  have hmoments : (Walk.mk (visits cx 0 program.preamble s) t1 (some t1)).moments =
      (visits cx 0 program.preamble s).map .visit := by simp [Walk.moments, hout]
  rcases List.mem_cons.mp hw with rfl | hw
  · refine ⟨⟨0, program.preamble, [], s, t1, _⟩, rfl, .refl s, .preamble hs, hpreamble, rfl, rfl,
      .inl ⟨hout, rfl⟩, hmoves, fun v hv => ?_⟩
    rw [Nat.zero_add]
    exact index_of_mem_moments (fun w hw v hv => (mem_routinesWalks hw hv).1) hv
  · obtain ⟨p, -, hsettled⟩ := routines_settled hm (fun r hr => hr) hout hroutines hw hset
    refine ⟨p.follow _, hsettled.follow ?_⟩
    rw [hmoments]
    exact hreads.moves

omit hm

/-- A reading that comes to its end visits every node. -/
theorem exists_visit {index : Nat} {nodes : List Node} {s t : State}
    (h : visitAll cx index nodes s = .ok () t) {k : Nat} {n : Node} (hn : nodes[k]? = some n) :
    ∃ v ∈ visits cx index nodes s, v.index = index + k ∧ v.node = n := by
  induction nodes generalizing index k s with
  | nil => cases hn
  | cons first rest ih =>
    obtain ⟨⟨⟩, u, hfirst, hrest⟩ := bind_ok h
    rw [visits, hfirst]
    cases k with
    | zero =>
      cases hn
      exact ⟨_, List.mem_cons_self, rfl, rfl⟩
    | succ k =>
      obtain ⟨v, hv, hindex, hnode⟩ := ih hrest hn
      exact ⟨v, List.mem_cons_of_mem _ hv, by omega, hnode⟩

/-- The walks of a routine that is left end with a settled one, and it visits every node. -/
theorem exists_settledWalk {left : Nat} {s t : State}
    (h : walkRoutine cx start r left s = .ok () t) {k : Nat} {n : Node}
    (hn : r.nodes[k]? = some n) :
    ∃ w ∈ routineWalks cx start r left s, w.settled = true ∧
      ∃ v ∈ w.visits, v.index = start + k ∧ v.node = n := by
  induction left generalizing s with
  | zero =>
    obtain ⟨⟨⟩, u, hvisits, hend⟩ := bind_ok h
    unfold routineWalks
    rw [hvisits]
    rcases endWalk_walks (visits cx start r.nodes s) (fun _ => []) hend with
      ⟨-, heq⟩ | ⟨-, -, walk, -, -, hwalk, -⟩
    · exact ⟨_, heq ▸ List.mem_singleton_self _, rfl, exists_visit hvisits hn⟩
    · cases hwalk
  | succ left ih =>
    obtain ⟨⟨⟩, u, hvisits, hend⟩ := bind_ok h
    unfold routineWalks
    rw [hvisits]
    rcases endWalk_walks (visits cx start r.nodes s) (routineWalks cx start r left) hend with
      ⟨-, heq⟩ | ⟨scope, next, walk, -, -, hwalk, ht, heq⟩
    · exact ⟨_, heq ▸ List.mem_singleton_self _, rfl, exists_visit hvisits hn⟩
    · cases hwalk
      obtain ⟨w, hw, hset, hv⟩ := ih ht
      have hmem : w ∈ endedWalks cx (visits cx start r.nodes s) u
          (routineWalks cx start r left) := by
        rw [heq]
        exact List.mem_cons_of_mem _ hw
      exact ⟨w, hmem, hset, hv⟩

theorem routines_reach {rs : List Routine} {start next : Nat} {s t : State}
    (h : routines cx start rs s = .ok next t) {w : Walk} (hw : w ∈ routinesWalks cx start rs s)
    {x : Visit} (hx : x ∈ w.visits) :
    ∃ w ∈ routinesWalks cx start rs s, w.settled = true ∧
      ∃ v ∈ w.visits, v.index = x.index ∧ v.node = x.node := by
  induction rs generalizing start s with
  | nil => cases hw
  | cons r rest ih =>
    obtain ⟨⟨⟩, u, hfirst, hrest⟩ := bind_ok h
    unfold routinesWalks at hw ⊢
    rw [hfirst] at hw ⊢
    dsimp only at hw ⊢
    rcases List.mem_append.mp hw with hw | hw
    · obtain ⟨t, -, ht⟩ := mem_routineWalks hw rfl
      obtain ⟨hindex, hnode⟩ := mem_visits (ht ▸ hx)
      obtain ⟨w, hw, hset, v, hv, hvi, hvn⟩ :=
        exists_settledWalk (s := s.enter start r) hfirst hnode
      exact ⟨w, List.mem_append_left _ hw, hset, v, hv, by omega, hvn⟩
    · obtain ⟨w, hw, hset, hv⟩ := ih hrest hw
      exact ⟨w, List.mem_append_right _ hw, hset, hv⟩

/-- Every node that a pass visits is visited by a settled walk. -/
theorem pass_reaches {program : Program} {s t1 t2 : State} {index : Nat}
    (hpreamble : visitAll cx 0 program.preamble s = .ok () t1)
    (hroutines : routines cx program.preamble.length program.routines t1 = .ok index t2) {w : Walk}
    (hw : w ∈ passWalks cx program s) {x : Visit} (hx : x ∈ w.visits) :
    ∃ w ∈ passWalks cx program s, w.settled = true ∧
      ∃ v ∈ w.visits, v.index = x.index ∧ v.node = x.node := by
  unfold passWalks at hw ⊢
  rw [hpreamble] at hw ⊢
  rcases List.mem_cons.mp hw with rfl | hw
  · exact ⟨_, List.mem_cons_self, rfl, x, hx, rfl, rfl⟩
  · obtain ⟨w, hw, hset, hv⟩ := routines_reach hroutines hw hx
    exact ⟨w, List.mem_cons_of_mem _ hw, hset, hv⟩

end Routines

/-! ## The course of the final pass -/

/-- All that happens in a pass. -/
def FinalPass.moments (p : FinalPass) : List Moment := p.walks.flatMap Walk.moments

/-- The moves of a pass, up to the state `t` in which it ends. -/
structure FinalPass.Course (p : FinalPass) (t : State) : Prop where
  moves : Moves p.context p.start p.moments t
  outside : t.scope = none
  ended : Ended t p.finish
  settled : ∀ w ∈ p.walks, w.settled = true →
    ∃ place, Settled p.context p.program.routines p.start p.moments t w place
  reaches : ∀ x ∈ p.visits, ∃ w ∈ p.walks, w.settled = true ∧
    ∃ v ∈ w.visits, v.index = x.index ∧ v.node = x.node

theorem FinalPass.Makes.course {p : FinalPass} {o : Options} {nodes : List Node}
    {story : AssembledStory} (h : p.Makes o nodes story) : ∃ t, p.Course t := by
  have hs : p.start.scope = none := by
    obtain ⟨s, hs⟩ := h.begins
    rw [hs]
    rfl
  have hends := h.ends
  rw [h.program] at hends
  obtain ⟨t1, t2, index, hpreamble, hroutines, hended⟩ := pass_parts h.mode hends
  rw [← h.program] at hpreamble hroutines
  obtain ⟨hmoves, hout⟩ := pass_moves h.mode hs hpreamble hroutines
  refine ⟨t2, hmoves, hout, hended,
    fun w hw hset => pass_settled h.mode hs hpreamble hroutines hw hset, fun x hx => ?_⟩
  obtain ⟨w, hw, hx⟩ := List.mem_flatMap.mp hx
  exact pass_reaches hpreamble hroutines hw hx

theorem FinalPass.visits_eq (p : FinalPass) : p.visits = p.moments.filterMap Moment.visit? := by
  unfold FinalPass.visits FinalPass.moments
  rw [List.filterMap_flatMap]
  congr 1
  funext w
  exact (filterMap_moments w).symm

theorem FinalPass.mem_visits {p : FinalPass} {v : Visit} (h : .visit v ∈ p.moments) :
    v ∈ p.visits := by
  rw [p.visits_eq]
  exact List.mem_filterMap.mpr ⟨_, h, rfl⟩

/-- A settled walk is cut at one of its visits: what came before, the visit, the rest of the walk,
    which is about later nodes, and what comes after the walk. -/
structure Cut (p : FinalPass) (t : State) (w : Walk) (v : Visit) (place : Place)
    (earlier later : List Visit) (u : State) : Prop where
  settled : Settled p.context p.program.routines p.start p.moments t w place
  visits : w.visits = earlier ++ v :: later
  reads : Reads p.context place.entry earlier u
  before : v.before = u.reach v.index v.node
  visit : Assembly.visit p.context v.index v.node u = .ok () v.after
  rest : Reads p.context v.after later w.finish
  index : ∀ x ∈ later, v.index < x.index

theorem FinalPass.Course.cut {p : FinalPass} {t : State} (h : p.Course t) {w : Walk}
    (hw : w ∈ p.walks) (hset : w.settled = true) {v : Visit} (hv : v ∈ w.visits) :
    ∃ place earlier later u, Cut p t w v place earlier later u := by
  obtain ⟨place, hplace⟩ := h.settled w hw hset
  rw [hplace.visits] at hv
  obtain ⟨earlier, later, u, hvisits, hreads, hbefore, hvisit, hrest, hindex⟩ :=
    visits_split hplace.reads hv
  exact ⟨place, earlier, later, u, hplace, hplace.visits.trans hvisits, hreads, hbefore, hvisit,
    hrest, hindex⟩

/-- The moves up to a visit of a settled walk. -/
theorem Cut.moves {p : FinalPass} {t u : State} {w : Walk} {v : Visit} {place : Place}
    {earlier later : List Visit} (h : Cut p t w v place earlier later u) :
    Moves p.context p.start (place.earlier ++ earlier.map .visit) u :=
  h.settled.before.trans h.reads.moves

theorem Cut.moments {p : FinalPass} {t u : State} {w : Walk} {v : Visit} {place : Place}
    {earlier later : List Visit} (h : Cut p t w v place earlier later u) {x : Visit}
    (hx : .visit x ∈ place.earlier ++ earlier.map .visit ∨ x = v ∨ x ∈ later ∨
      .visit x ∈ place.later) : x ∈ p.visits := by
  apply FinalPass.mem_visits
  rw [h.settled.moments, List.mem_append, List.mem_append, visit_mem_moments, h.visits]
  rcases hx with hx | rfl | hx | hx
  · rcases List.mem_append.mp hx with hx | hx
    · exact .inl hx
    · exact .inr (.inl (List.mem_append_left _ (by simpa using hx)))
  · exact .inr (.inl (List.mem_append_right _ List.mem_cons_self))
  · exact .inr (.inl (List.mem_append_right _ (List.mem_cons_of_mem _ hx)))
  · exact .inr (.inr hx)

/-- What follows a visit of a settled walk visits later nodes only. -/
theorem Cut.onward {p : FinalPass} {t u : State} {w : Walk} {v : Visit} {place : Place}
    {earlier later : List Visit} (h : Cut p t w v place earlier later u) :
    ∃ front rest, p.moments = front ++ .visit v :: rest ∧ Moves p.context v.after rest t ∧
      ∀ x, .visit x ∈ rest → v.index < x.index := by
  have hbound : v.index < place.start + place.nodes.length := by
    have hv : v ∈ Assembly.visits p.context place.start place.nodes place.entry := by
      rw [← h.settled.visits, h.visits]
      exact List.mem_append_right _ List.mem_cons_self
    obtain ⟨hstart, hnode⟩ := mem_visits hv
    obtain ⟨hlt, -⟩ := List.getElem?_eq_some_iff.mp hnode
    omega
  have hleave : ∃ l, w.moments = w.visits.map .visit ++ l ∧ Moves p.context w.finish l place.exit ∧
      ∀ x, .visit x ∉ l := by
    unfold Walk.moments
    rw [h.settled.left]
    rcases h.settled.goesOn with ⟨hs, heq⟩ | ⟨scope, hs, hmoved, hclose⟩
    · refine ⟨[], by simp [hs], heq ▸ .refl _, fun x hx => nomatch hx⟩
    · refine ⟨[.leave w.finish place.exit], by simp [hs], .leave hs hmoved hclose (.refl _),
        fun x hx => ?_⟩
      simp at hx
  obtain ⟨l, hl, hmoves, hnone⟩ := hleave
  refine ⟨place.earlier ++ earlier.map .visit, later.map .visit ++ (l ++ place.later), ?_,
    h.rest.moves.trans (hmoves.trans h.settled.after), fun x hx => ?_⟩
  · rw [h.settled.moments, hl, h.visits]
    simp
  · simp only [List.mem_append, List.mem_map] at hx
    rcases hx with ⟨y, hy, hxy⟩ | hx | hx
    · cases hxy
      exact h.index x hy
    · exact absurd hx (hnone x)
    · exact Nat.lt_of_lt_of_le hbound (h.settled.index x hx)

end ZAssembler.Assembly
