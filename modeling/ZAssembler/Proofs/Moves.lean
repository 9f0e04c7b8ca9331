import ZAssembler.Proofs.Anatomy
import ZAssembler.Proofs.Trace

/-
  The assembling pass as a chain of moves: a node is visited, a routine is entered, walked again or
  left. `pass_moves` says that a pass that comes to its end is such a chain. Invariants of the pass
  are proved by induction on the chain.
-/

namespace ZAssembler.Assembly

/-! ## What every change keeps -/

theorem continues_deferAll (a : RoutineScope) (changes : List (String × Int32)) :
    Continues a (deferAll a changes) := by
  unfold deferAll
  induction changes generalizing a with
  | nil => exact .refl a
  | cons change rest ih => exact (continues_defer a change.1 change.2).trans (ih _)

/-- What stays or grows while a node does its work. -/
structure Later (s t : State) : Prop where
  diagnostics : s.diagnostics.toList <+: t.diagnostics.toList
  size : s.image.size ≤ t.image.size
  /-- The cursor advances within the image, unless addresses wrap. -/
  cursor : t.image.size < 2 ^ 32 → s.image.cursor ≤ s.image.size →
    s.image.cursor ≤ t.image.cursor ∧ t.image.cursor ≤ t.image.size
  outside : s.scope = none → t.scope = none
  inside : ∀ a, s.scope = some a → ∃ b, t.scope = some b ∧ Continues a b

theorem Later.refl (s : State) : Later s s :=
  ⟨List.prefix_rfl, Nat.le_refl _, fun _ hc => ⟨Nat.le_refl _, hc⟩, id,
    fun a ha => ⟨a, ha, .refl a⟩⟩

theorem Later.trans {s t u : State} (hst : Later s t) (htu : Later t u) : Later s u := by
  refine ⟨hst.diagnostics.trans htu.diagnostics, Nat.le_trans hst.size htu.size,
    fun hfit hc => ?_, fun hs => htu.outside (hst.outside hs), fun a ha => ?_⟩
  · obtain ⟨h1, h2⟩ := hst.cursor (Nat.lt_of_le_of_lt htu.size hfit) hc
    obtain ⟨h3, h4⟩ := htu.cursor hfit h2
    exact ⟨Nat.le_trans h1 h3, h4⟩
  · obtain ⟨b, hb, hab⟩ := hst.inside a ha
    obtain ⟨c, hc, hbc⟩ := htu.inside b hb
    exact ⟨c, hc, hab.trans hbc⟩

/-- States that agree on all of this. -/
theorem later_of_eq {s t : State} (himage : t.image = s.image) (hscope : t.scope = s.scope)
    (hdiagnostics : t.diagnostics = s.diagnostics) : Later s t := by
  refine ⟨?_, ?_, fun _ hc => ?_, fun hs => hscope.trans hs, fun a ha => ?_⟩
  · exact hdiagnostics ▸ List.prefix_rfl
  · exact Nat.le_of_eq (congrArg _ himage.symm)
  · rw [himage]
    exact ⟨Nat.le_refl _, hc⟩
  · exact ⟨a, hscope.trans ha, .refl a⟩

theorem later_noted {name : String} {value : Int32} {s t : State} (h : Noted name value s t) :
    Later s t := by
  cases h with
  | same h => exact .refl s
  | inBlock v old _ _ _ => exact later_of_eq rfl rfl rfl
  | inRoutine scope old _ _ _ hs =>
    refine ⟨List.prefix_rfl, Nat.le_refl _, fun _ hc => ⟨Nat.le_refl _, hc⟩, fun hn => ?_,
      fun a ha => ?_⟩
    · rw [hs] at hn
      cases hn
    · rw [hs] at ha
      cases ha
      exact ⟨_, rfl, continues_defer scope name old⟩

theorem Rewrites.keeps {fixups : List Fixup} {im im' : Image} (h : Rewrites fixups im im') :
    im'.cursor = im.cursor ∧ im.size ≤ im'.size := by
  induction h with
  | refl => exact ⟨rfl, Nat.le_refl _⟩
  | tail _ hstep ih =>
    obtain ⟨f, -, addr, width, value, -, rfl⟩ := hstep
    rw [Image.cursor_patch]
    exact ⟨ih.1, Nat.le_trans ih.2 (Image.size_le_patch _ _ _)⟩

theorem later_closed {v : OpenVocabulary} {complete : Bool} {s t : State}
    (h : Closed v complete s t) : Later s t := by
  obtain ⟨hcursor, hsize⟩ := h.image.keeps
  rw [Image.cursor_patch] at hcursor
  have hle := Image.size_le_patch s.image v.start (s.arrangedBytes v)
  refine ⟨h.diagnostics, Nat.le_trans hle hsize, fun _ hc => ?_, fun hs => ?_,
    fun a ha => ?_⟩
  · rw [hcursor]
    exact ⟨Nat.le_refl _, Nat.le_trans hc (Nat.le_trans hle hsize)⟩
  · rw [h.scope, hs]
    rfl
  · rw [h.scope, ha]
    exact ⟨_, rfl, continues_deferAll a _⟩

/-- A block that is closed, or a node that finds none. -/
theorem closeBlock_cases {cx : Context} (hm : cx.mode = .assembling) {s t : State}
    (h : closeVocabulary cx s = .ok () t ∨ ∃ p, closeVocabulary cx s = .error (.skip p) t) :
    t = s ∨ ∃ v complete, s.vocabulary = some v ∧ Closed v complete s t := by
  rcases h with h | ⟨p, h⟩
  · obtain ⟨v, hv, hc⟩ := closeVocabulary_ok hm h
    exact .inr ⟨v, true, hv, hc⟩
  · rcases closeVocabulary_skip hm h with ⟨-, rfl⟩ | ⟨v, hv, hc⟩
    · exact .inl rfl
    · exact .inr ⟨v, false, hv, hc⟩

theorem Change.index {cx : Context} (hm : cx.mode = .assembling) {n : Node} {s t : State}
    (h : Change cx n s t) : t.index = s.index := by
  cases h with
  | aside h => exact h.index
  | define name kind value hkind _ h =>
    obtain ⟨-, symbol, u, -, hu, rfl⟩ := defineGlobal_ok hm hkind h
    cases hu <;> rfl
  | closeBlock _ h =>
    rcases closeBlock_cases hm h with rfl | ⟨v, complete, -, hc⟩
    · rfl
    · exact hc.index
  | localLabel name _ h =>
    obtain ⟨scope, symbol, -, -, -, ⟨-, ht⟩ | ⟨ht, -⟩⟩ := localLabel_ok h <;> rw [ht]
  | report | store | fixup | label | openBlock | locals => rfl

theorem Change.later {cx : Context} (hm : cx.mode = .assembling) {n : Node} {s t : State}
    (h : Change cx n s t) : Later s t := by
  cases h with
  | aside h => exact later_of_eq h.image h.scope h.diagnostics
  | report d =>
    refine ⟨?_, Nat.le_refl _, fun _ hc => ⟨Nat.le_refl _, hc⟩, id,
      fun a ha => ⟨a, ha, .refl a⟩⟩
    rw [Array.toList_push]
    exact List.prefix_append _ _
  | store bytes =>
    refine ⟨List.prefix_rfl, Image.size_le_store _ _, fun hfit hc => ?_, id,
      fun a ha => ⟨a, ha, .refl a⟩⟩
    obtain ⟨h1, h2⟩ := Image.cursor_store_le s.image bytes hfit hc
    exact ⟨h1 ▸ Nat.le_add_right _ _, h2⟩
  | fixup f width _ _ => exact later_of_eq rfl rfl rfl
  | define name kind value hkind _ h =>
    obtain ⟨-, symbol, u, -, hu, rfl⟩ := defineGlobal_ok hm hkind h
    exact (later_noted hu).trans (later_of_eq rfl rfl rfl)
  | label v name _ _ _ => exact later_of_eq rfl rfl rfl
  | openBlock recordSize keySize _ _ => exact later_of_eq rfl rfl rfl
  | closeBlock _ h =>
    rcases closeBlock_cases hm h with rfl | ⟨v, complete, -, hc⟩
    · exact .refl t
    · exact later_closed hc
  | localLabel name _ h =>
    obtain ⟨scope, symbol, hs, -, -, ⟨-, ht⟩ | ⟨ht, hscope⟩⟩ := localLabel_ok h
    · rw [ht]
      exact later_of_eq rfl rfl rfl
    · have himage : t.image = s.image := by rw [ht]
      have hdiagnostics : t.diagnostics = s.diagnostics := by rw [ht]
      have hlater : Later { s with scope := t.scope } t := later_of_eq himage rfl hdiagnostics
      refine ⟨hlater.diagnostics, hlater.size, hlater.cursor, fun hn => ?_,
        fun a ha => ?_⟩
      · rw [hs] at hn
        cases hn
      · rw [hs] at ha
        cases ha
        exact ⟨_, hscope, rfl, rfl, rfl, fun _ => rfl⟩
  | locals table name decls _ => exact later_of_eq rfl rfl rfl

/-- A node's work does not change its number. -/
theorem Changes.index {cx : Context} (hm : cx.mode = .assembling) {n : Node} {s t : State}
    (h : Changes cx n s t) : t.index = s.index := by
  induction h with
  | refl => rfl
  | tail _ hstep ih => exact (hstep.index hm).trans ih

theorem Changes.later {cx : Context} (hm : cx.mode = .assembling) {n : Node} {s t : State}
    (h : Changes cx n s t) : Later s t := by
  induction h with
  | refl => exact .refl s
  | tail _ hstep ih => exact ih.trans (hstep.later hm)

/-! ## Visits -/

theorem recover_ok {cx : Context} {p : Problem} {s t : State} (h : recover cx p s = .ok () t) :
    t = s.report .error p := by
  unfold recover at h
  rw [modify_bind, get_bind] at h
  cases htoo : (s.report .error p).tooManyErrors? cx with
  | none =>
    rw [htoo] at h
    cases h
    rfl
  | some problem =>
    rw [htoo] at h
    cases h

theorem visit_of_ok {cx : Context} {index : Nat} {n : Node} {s t : State}
    (h : node cx n (s.reach index n) = .ok () t) : visit cx index n s = .ok () t := by
  show runStep cx (node cx n) (s.reach index n) = _
  unfold runStep
  rw [h]

/-- A node does its work, or it is given up and the error reported. -/
theorem visit_cases {cx : Context} {index : Nat} {n : Node} {s t : State}
    (h : visit cx index n s = .ok () t) :
    node cx n (s.reach index n) = .ok () t ∨
    ∃ p u, node cx n (s.reach index n) = .error (.skip p) u ∧ t = u.report .error p := by
  have hrun : runStep cx (node cx n) (s.reach index n) = .ok () t := h
  unfold runStep at hrun
  cases hn : node cx n (s.reach index n) with
  | ok a u =>
    rw [hn] at hrun
    cases hrun
    exact .inl rfl
  | error i u =>
    rw [hn] at hrun
    cases i with
    | skip p => exact .inr ⟨p, u, rfl, recover_ok hrun⟩
    | abort p => cases hrun
    | restart v => cases hrun

theorem visit_changes {cx : Context} (hm : cx.mode = .assembling) {index : Nat} {n : Node}
    {s t : State} (h : visit cx index n s = .ok () t) : Changes cx n (s.reach index n) t := by
  have hdoes := node_does (n := n) hm (s.reach index n)
  rcases visit_cases h with hok | ⟨p, u, hskip, rfl⟩
  · exact hdoes.of_ok hok
  · exact (hdoes.of_skip hskip).tail (.report u _)

theorem visit_later {cx : Context} (hm : cx.mode = .assembling) {index : Nat} {n : Node}
    {s t : State} (h : visit cx index n s = .ok () t) : Later s t := by
  have hreach : Later s (s.reach index n) := later_of_eq rfl rfl rfl
  exact hreach.trans ((visit_changes hm h).later hm)

/-- The end of a block: it is closed, or given up with an error. -/
theorem visit_close {cx : Context} (hm : cx.mode = .assembling) {index : Nat} {n : Node}
    {s t : State} (hn : n.kind = .directive .vocend) (h : visit cx index n s = .ok () t) :
    (∃ v, s.vocabulary = some v ∧ node cx n (s.reach index n) = .ok () t ∧
      Closed v true (s.reach index n) t) ∨
    ∃ p u, node cx n (s.reach index n) = .error (.skip p) u ∧ t = u.report .error p ∧
      ((s.vocabulary = none ∧ u = s.reach index n) ∨
        ∃ v, s.vocabulary = some v ∧ Closed v false (s.reach index n) u) := by
  have hnode : node cx n = closeVocabulary cx := node_directive hn
  rcases visit_cases h with hok | ⟨p, u, hskip, rfl⟩
  · obtain ⟨v, hv, hc⟩ := closeVocabulary_ok hm (hnode ▸ hok)
    exact .inl ⟨v, hv, hok, hc⟩
  · exact .inr ⟨p, u, hskip, rfl, closeVocabulary_skip hm (hnode ▸ hskip)⟩

/-- Reading nodes one after the other. -/
inductive Reads (cx : Context) : State → List Visit → State → Prop
  | nil (s : State) : Reads cx s [] s
  | cons {s t u : State} {vs : List Visit} (index : Nat) (n : Node)
    (h : visit cx index n s = .ok () t) (rest : Reads cx t vs u) :
    Reads cx s (⟨index, n, s.reach index n, t⟩ :: vs) u

theorem visitAll_reads {cx : Context} (index : Nat) (nodes : List Node) {s t : State}
    (h : visitAll cx index nodes s = .ok () t) : Reads cx s (visits cx index nodes s) t := by
  induction nodes generalizing index s with
  | nil =>
    cases h
    exact .nil t
  | cons n rest ih =>
    obtain ⟨⟨⟩, u, hfirst, hrest⟩ := bind_ok h
    unfold visits
    rw [hfirst]
    exact .cons index n hfirst (ih (index + 1) hrest)

theorem Reads.later {cx : Context} (hm : cx.mode = .assembling) {s t : State} {vs : List Visit}
    (h : Reads cx s vs t) : Later s t := by
  induction h with
  | nil s => exact .refl s
  | cons index n h _ ih => exact (visit_later hm h).trans ih

/-- Visits are numbered in the order of the nodes. -/
theorem mem_visits {cx : Context} {index : Nat} {nodes : List Node} {s : State} {v : Visit}
    (h : v ∈ visits cx index nodes s) :
    index ≤ v.index ∧ nodes[v.index - index]? = some v.node := by
  induction nodes generalizing index s with
  | nil => cases h
  | cons n rest ih =>
    unfold visits at h
    split at h
    · rcases List.mem_cons.mp h with rfl | h
      · simp
      · obtain ⟨h1, h2⟩ := ih h
        refine ⟨by omega, ?_⟩
        rw [show v.index - index = v.index - (index + 1) + 1 by omega, List.getElem?_cons_succ]
        exact h2
    · cases h

/-- What every visit keeps, as the numbers grow, holds before each of them. -/
theorem visits_keep {cx : Context} {P : Nat → State → Prop}
    (hstep : ∀ {index n s t}, visit cx index n s = .ok () t → P index s → P (index + 1) t)
    {index : Nat} {nodes : List Node} {s : State} (hs : P index s) {v : Visit}
    (hv : v ∈ visits cx index nodes s) : ∃ u, v.before = u.reach v.index v.node ∧ P v.index u := by
  induction nodes generalizing index s with
  | nil => cases hv
  | cons n rest ih =>
    unfold visits at hv
    split at hv
    next t hvisit =>
      rcases List.mem_cons.mp hv with rfl | hv
      · exact ⟨s, rfl, hs⟩
      · exact ih (hstep hvisit hs) hv
    next => cases hv

/-- A reading is cut at one of its visits; the later ones have greater numbers. -/
theorem visits_split {cx : Context} {index : Nat} {nodes : List Node} {s t : State} {v : Visit}
    (h : visitAll cx index nodes s = .ok () t) (hv : v ∈ visits cx index nodes s) :
    ∃ earlier later u, visits cx index nodes s = earlier ++ v :: later ∧
      Reads cx s earlier u ∧ v.before = u.reach v.index v.node ∧
      visit cx v.index v.node u = .ok () v.after ∧ Reads cx v.after later t ∧
      ∀ w ∈ later, v.index < w.index := by
  induction nodes generalizing index s with
  | nil => cases hv
  | cons n rest ih =>
    obtain ⟨⟨⟩, u, hfirst, hrest⟩ := bind_ok h
    have hvisits : visits cx index (n :: rest) s =
        ⟨index, n, s.reach index n, u⟩ :: visits cx (index + 1) rest u := by
      rw [visits, hfirst]
    rw [hvisits] at hv ⊢
    rcases List.mem_cons.mp hv with rfl | hv
    · refine ⟨[], _, s, rfl, .nil s, rfl, hfirst, visitAll_reads _ _ hrest, fun w hw => ?_⟩
      have := (mem_visits hw).1
      dsimp only
      omega
    · obtain ⟨earlier, later, w, he, hr, hb, hvisit, hl, hi⟩ := ih hrest hv
      refine ⟨_ :: earlier, later, w, ?_, .cons index n hfirst hr, hb, hvisit, hl, hi⟩
      rw [he]
      rfl

/-! ## Moves -/

/-- A routine is left: its changes are none, and all but its scope and its locals stays. -/
structure Left (scope : RoutineScope) (s t : State) : Prop where
  eq : ∃ log counts, t = { s with scope := none, locals := .empty, log, counts }
  unmoved : ∀ change ∈ scope.deferred, Unmoved s.globals change.1 change.2

namespace Left

variable {scope : RoutineScope} {s t : State}

theorem image (h : Left scope s t) : t.image = s.image := by
  obtain ⟨log, counts, rfl⟩ := h.eq
  rfl

theorem globals (h : Left scope s t) : t.globals = s.globals := by
  obtain ⟨log, counts, rfl⟩ := h.eq
  rfl

theorem fixups (h : Left scope s t) : t.fixups = s.fixups := by
  obtain ⟨log, counts, rfl⟩ := h.eq
  rfl

theorem vocabulary (h : Left scope s t) : t.vocabulary = s.vocabulary := by
  obtain ⟨log, counts, rfl⟩ := h.eq
  rfl

theorem diagnostics (h : Left scope s t) : t.diagnostics = s.diagnostics := by
  obtain ⟨log, counts, rfl⟩ := h.eq
  rfl

theorem outside (h : Left scope s t) : t.scope = none := by
  obtain ⟨log, counts, rfl⟩ := h.eq
  rfl

end Left

theorem judgeChanges_ok {cx : Context} (hm : cx.mode = .assembling)
    (changes : List (String × Int32)) {s t : State}
    (h : (changes.forM fun (name, old) => judgeChange cx name old) s = .ok () t) :
    t = s ∧ ∀ change ∈ changes, Unmoved s.globals change.1 change.2 := by
  induction changes generalizing s with
  | nil =>
    cases h
    exact ⟨rfl, fun change hc => nomatch hc⟩
  | cons change rest ih =>
    obtain ⟨u, hfirst, hrest⟩ := forM_cons_ok h
    obtain ⟨rfl, hu⟩ := judgeChange_ok hm hfirst
    obtain ⟨rfl, hr⟩ := ih hrest
    refine ⟨rfl, fun c hc => ?_⟩
    rcases List.mem_cons.mp hc with rfl | hc
    · exact hu
    · exact hr c hc

theorem judgeChanges_not_skip {cx : Context} (hm : cx.mode = .assembling)
    (changes : List (String × Int32)) {s t : State} {p : Problem} :
    (changes.forM fun (name, old) => judgeChange cx name old) s ≠ .error (.skip p) t := by
  induction changes generalizing s with
  | nil => exact fun h => nomatch h
  | cons change rest ih =>
    intro h
    rcases forM_cons_error h with h | ⟨u, -, h⟩
    · have hjudge := judgeChange_eq hm change.1 change.2 s
      rw [show judgeChange cx change.1 change.2 s = .error (.skip p) t from h] at hjudge
      split at hjudge
      · cases hjudge
      · split at hjudge <;> cases hjudge
    · exact ih h

theorem closeRoutine_ok {cx : Context} (hm : cx.mode = .assembling) {scope : RoutineScope}
    {s t : State} (h : closeRoutine cx scope s = .ok () t) : Left scope s t := by
  have hrun : ∃ log counts,
      runStep cx (scope.deferred.forM fun (name, old) => judgeChange cx name old)
        { s with scope := none, locals := .empty, log, counts } = .ok () t := by
    unfold closeRoutine at h
    rw [modify_bind] at h
    by_cases hw : 1 < scope.walks
    · rw [if_pos hw, modify_bind] at h
      exact ⟨_, _, h⟩
    · rw [if_neg hw] at h
      exact ⟨_, _, h⟩
  obtain ⟨log, counts, hrun⟩ := hrun
  unfold runStep at hrun
  cases hj : (scope.deferred.forM fun (name, old) => judgeChange cx name old)
      { s with scope := none, locals := .empty, log, counts } with
  | ok a w =>
    rw [hj] at hrun
    cases hrun
    obtain ⟨rfl, hu⟩ := judgeChanges_ok hm scope.deferred hj
    exact ⟨⟨log, counts, rfl⟩, hu⟩
  | error i w =>
    rw [hj] at hrun
    cases i with
    | skip p => exact absurd hj (judgeChanges_not_skip hm scope.deferred)
    | abort p => cases hrun
    | restart v => cases hrun

/-- What happens in a pass, one after the other. -/
inductive Moment
  | visit (v : Visit)
  /-- A routine is left. -/
  | leave (before after : State)

/-- What happens in a walk: its visits, and the routine is left if it has settled. -/
def Walk.moments (w : Walk) : List Moment :=
  w.visits.map .visit ++
    match w.left with
    | some t => if w.finish.scope.isSome then [.leave w.finish t] else []
    | none => []

/-- A part of a pass. Entering a routine and walking it again are silent. -/
inductive Moves (cx : Context) : State → List Moment → State → Prop
  | refl (s : State) : Moves cx s [] s
  | visit {s t u : State} {l : List Moment} (index : Nat) (n : Node)
    (h : Assembly.visit cx index n s = .ok () t) (rest : Moves cx t l u) :
    Moves cx s (.visit ⟨index, n, s.reach index n, t⟩ :: l) u
  | enter {s u : State} {l : List Moment} (start : Nat) (r : Routine) (hs : s.scope = none)
    (rest : Moves cx (s.enter start r) l u) : Moves cx s l u
  | again {s u : State} {l : List Moment} {scope next : RoutineScope} (hs : s.scope = some scope)
    (hnext : scope.nextWalk? = some next) (rest : Moves cx (s.walkAgain next) l u) :
    Moves cx s l u
  | leave {s t u : State} {l : List Moment} {scope : RoutineScope} (hs : s.scope = some scope)
    (hmoved : scope.moved = false) (h : closeRoutine cx scope s = .ok () t)
    (rest : Moves cx t l u) : Moves cx s (.leave s t :: l) u

theorem Moves.trans {cx : Context} {s t u : State} {l l' : List Moment} (h : Moves cx s l t)
    (h' : Moves cx t l' u) : Moves cx s (l ++ l') u := by
  induction h with
  | refl s => exact h'
  | visit index n h _ ih => exact .visit index n h (ih h')
  | enter start r hs _ ih => exact .enter start r hs (ih h')
  | again hs hnext _ ih => exact .again hs hnext (ih h')
  | leave hs hmoved h _ ih => exact .leave hs hmoved h (ih h')

/-- What every move keeps holds at the end. -/
theorem Moves.keeps {P : State → Prop} {cx : Context} (hm : cx.mode = .assembling) {s t : State}
    {l : List Moment} (h : Moves cx s l t)
    (hvisit : ∀ {s t index n}, .visit ⟨index, n, s.reach index n, t⟩ ∈ l →
      Assembly.visit cx index n s = .ok () t → P s → P t)
    (henter : ∀ {s} start r, s.scope = none → P s → P (s.enter start r))
    (hagain : ∀ {s scope next}, s.scope = some scope → scope.nextWalk? = some next → P s →
      P (s.walkAgain next))
    (hleave : ∀ {s t scope}, s.scope = some scope → Left scope s t → P s → P t)
    (hs : P s) : P t := by
  induction h with
  | refl s => exact hs
  | visit index n h _ ih =>
    exact ih (fun hv => hvisit (List.mem_cons_of_mem _ hv)) (hvisit List.mem_cons_self h hs)
  | enter start r hscope _ ih => exact ih hvisit (henter start r hscope hs)
  | again hscope hnext _ ih => exact ih hvisit (hagain hscope hnext hs)
  | leave hscope _ h _ ih =>
    exact ih (fun hv => hvisit (List.mem_cons_of_mem _ hv))
      (hleave hscope (closeRoutine_ok hm h) hs)

theorem Reads.moves {cx : Context} {s t : State} {vs : List Visit} (h : Reads cx s vs t) :
    Moves cx s (vs.map .visit) t := by
  induction h with
  | nil s => exact .refl s
  | cons index n h _ ih => exact .visit index n h ih

/-- What follows a walk. -/
theorem endWalk_cases {cx : Context} {again : Option (Pass Unit)} {s t : State}
    (h : endWalk cx again s = .ok () t) :
    (s.scope = none ∧ t = s) ∨
    (∃ scope, s.scope = some scope ∧ scope.moved = false ∧ closeRoutine cx scope s = .ok () t) ∨
    ∃ scope next walk, s.scope = some scope ∧ scope.moved = true ∧
      scope.nextWalk? = some next ∧ again = some walk ∧ walk (s.walkAgain next) = .ok () t := by
  unfold endWalk at h
  rw [get_bind] at h
  cases hs : s.scope with
  | none =>
    rw [hs] at h
    cases h
    exact .inl ⟨rfl, rfl⟩
  | some scope =>
    rw [hs] at h
    dsimp only at h
    cases hmoved : scope.moved with
    | false =>
      rw [hmoved] at h
      exact .inr (.inl ⟨scope, rfl, hmoved, h⟩)
    | true =>
      rw [hmoved] at h
      cases hnext : scope.nextWalk? with
      | none => rw [hnext] at h; cases h
      | some next =>
        rw [hnext] at h
        cases again with
        | none => cases h
        | some walk => exact .inr (.inr ⟨scope, next, walk, rfl, hmoved, hnext, rfl, h⟩)

/-- The walks of a routine, as moves from the end of its first walk. -/
theorem endWalk_moves {cx : Context} (vs : List Visit) (walks : State → List Walk)
    {again : Option (Pass Unit)} {s t : State} (h : endWalk cx again s = .ok () t)
    (hagain : ∀ walk u, again = some walk → walk u = .ok () t →
      Moves cx u ((walks u).flatMap Walk.moments) t ∧ t.scope = none)
    (hm : cx.mode = .assembling) :
    ∃ l, (endedWalks cx vs s walks).flatMap Walk.moments = vs.map .visit ++ l ∧
      Moves cx s l t ∧ t.scope = none := by
  unfold endedWalks
  rcases endWalk_cases h with ⟨hs, rfl⟩ | ⟨scope, hs, hmoved, hclose⟩ |
    ⟨scope, next, walk, hs, hmoved, hnext, hwalk, ht⟩
  · refine ⟨[], ?_, .refl t, hs⟩
    rw [hs]
    simp [Walk.moments, hs]
  · refine ⟨[.leave s t], ?_, .leave hs hmoved hclose (.refl t),
      (closeRoutine_ok hm hclose).outside⟩
    rw [hs]
    simp [Walk.moments, hs, hmoved, hclose]
  · obtain ⟨hmoves, hout⟩ := hagain walk _ hwalk ht
    refine ⟨_, ?_, .again hs hnext hmoves, hout⟩
    rw [hs]
    simp [Walk.moments, hmoved, hnext]

theorem walkRoutine_moves {cx : Context} (hm : cx.mode = .assembling) {start : Nat} {r : Routine}
    {left : Nat} {s t : State} (h : walkRoutine cx start r left s = .ok () t) :
    Moves cx s ((routineWalks cx start r left s).flatMap Walk.moments) t ∧ t.scope = none := by
  induction left generalizing s with
  | zero =>
    obtain ⟨⟨⟩, u, hvisits, hend⟩ := bind_ok h
    unfold routineWalks
    rw [hvisits]
    dsimp only
    obtain ⟨l, hl, hmoves, hout⟩ := endWalk_moves (visits cx start (r.head :: r.body) s)
      (fun _ => []) hend (fun walk u hw => nomatch hw) hm
    rw [hl]
    exact ⟨(visitAll_reads _ _ hvisits).moves.trans hmoves, hout⟩
  | succ left ih =>
    obtain ⟨⟨⟩, u, hvisits, hend⟩ := bind_ok h
    unfold routineWalks
    rw [hvisits]
    dsimp only
    obtain ⟨l, hl, hmoves, hout⟩ := endWalk_moves (visits cx start (r.head :: r.body) s)
      (routineWalks cx start r left) hend (fun walk u hw hu => ih (by cases hw; exact hu)) hm
    rw [hl]
    exact ⟨(visitAll_reads _ _ hvisits).moves.trans hmoves, hout⟩

theorem routines_moves {cx : Context} (hm : cx.mode = .assembling) {start next : Nat}
    {rs : List Routine} {s t : State} (hs : s.scope = none)
    (h : routines cx start rs s = .ok next t) :
    Moves cx s ((routinesWalks cx start rs s).flatMap Walk.moments) t ∧ t.scope = none := by
  induction rs generalizing start s with
  | nil =>
    cases h
    exact ⟨.refl t, hs⟩
  | cons r rest ih =>
    obtain ⟨⟨⟩, u, hfirst, hrest⟩ := bind_ok h
    obtain ⟨hmoves, hout⟩ := walkRoutine_moves hm (s := s.enter start r) hfirst
    obtain ⟨hmoves', hout'⟩ := ih hout hrest
    unfold routinesWalks
    rw [hfirst]
    dsimp only
    rw [List.flatMap_append]
    exact ⟨.trans (.enter start r hs hmoves) hmoves', hout'⟩

/-! ## The end of a pass -/

/-- A pass ends: its image, its globals and what it has collected stay, nothing waits, and an open
    block is an error. -/
structure Ended (s t : State) : Prop where
  image : t.image = s.image
  globals : t.globals = s.globals
  packing : t.packing = s.packing
  debug : t.debug = s.debug
  text : t.text = s.text
  diagnostics : s.diagnostics.toList <+: t.diagnostics.toList
  closed : s.vocabulary = none ∨ 0 < errorCount t.diagnostics.toList

theorem errorCount_report (s : State) (p : Problem) :
    errorCount (s.report .error p).diagnostics.toList = errorCount s.diagnostics.toList + 1 := by
  unfold errorCount State.report
  rw [Array.toList_push, List.countP_append]
  rfl

theorem errorCount_report_pos (s : State) (p : Problem) :
    0 < errorCount (s.report .error p).diagnostics.toList := by
  rw [errorCount_report]
  exact Nat.succ_pos _

theorem errorCount_mono {ds ds' : List Diagnostic} (h : ds <+: ds') :
    errorCount ds ≤ errorCount ds' := by
  obtain ⟨rest, rfl⟩ := h
  unfold errorCount
  rw [List.countP_append]
  omega

theorem prefix_report (s : State) (severity : Severity) (p : Problem) :
    s.diagnostics.toList <+: (s.report severity p).diagnostics.toList := by
  unfold State.report
  rw [Array.toList_push]
  exact List.prefix_append _ _

/-- The part of the end of an assembling pass that follows the tables. -/
def endBlocks (cx : Context) : Pass Unit := do
  match (← get).vocabulary with
  | some _ =>
    modify fun s => { s with vocabulary := none }
    recover cx .unclosedVocabulary
  | none => pure ()
  let fixups := (← get).fixups.toList
  if !fixups.isEmpty then stopWith (.unresolvedReferences (waitingNames fixups))

theorem endBlocks_ended {cx : Context} {s t : State} (h : endBlocks cx s = .ok () t) :
    Ended s t := by
  have hwaiting : ∀ u : State, (do
      let fixups := (← get).fixups.toList
      if !fixups.isEmpty then stopWith (.unresolvedReferences (waitingNames fixups)) :
        Pass Unit) u = .ok () t → t = u := by
    intro u hu
    rw [get_bind] at hu
    by_cases hw : (!u.fixups.toList.isEmpty) = true
    · rw [if_pos hw] at hu
      cases hu
    · rw [if_neg hw] at hu
      cases hu
      rfl
  unfold endBlocks at h
  rw [get_bind] at h
  cases hv : s.vocabulary with
  | none =>
    rw [hv] at h
    obtain rfl := hwaiting s h
    exact ⟨rfl, rfl, rfl, rfl, rfl, List.prefix_rfl, .inl hv⟩
  | some v =>
    rw [hv] at h
    dsimp only at h
    rw [modify_bind] at h
    obtain ⟨⟨⟩, u, hu, h⟩ := bind_ok h
    obtain rfl := recover_ok hu
    obtain rfl := hwaiting _ h
    exact ⟨rfl, rfl, rfl, rfl, rfl, prefix_report _ _ _, .inr (errorCount_report_pos _ _)⟩

theorem endPass_ended {cx : Context} (hm : cx.mode = .assembling) {s t : State}
    (h : endPass cx s = .ok () t) : Ended s t := by
  unfold endPass at h
  rw [get_bind, hm] at h
  cases ht : s.table with
  | none =>
    rw [ht] at h
    exact endBlocks_ended h
  | some table =>
    rw [ht] at h
    dsimp only at h
    rw [modify_bind] at h
    obtain ⟨⟨⟩, u, hu, h⟩ := bind_ok h
    obtain rfl := recover_ok hu
    have hended := endBlocks_ended h
    have hpos := errorCount_report_pos { s with table := none } (.unclosedTable table.start)
    refine ⟨hended.image, hended.globals, hended.packing, hended.debug, hended.text,
      (prefix_report _ _ _).trans hended.diagnostics, .inr ?_⟩
    exact Nat.lt_of_lt_of_le hpos (errorCount_mono hended.diagnostics)

theorem closing_stops {nodes : List Node} {n : Node}
    (h : (Program.ofNodes nodes).closing = some n) : n.kind = .directive .stop := by
  have hends : Program.endsProgram n = true := List.find?_some (l := nodes) h
  unfold Program.endsProgram at hends
  split at hends
  · next hk => exact hk
  · cases hends

/-- The node that ends the program does nothing. -/
theorem visit_stop {cx : Context} {index : Nat} {n : Node} (hn : n.kind = .directive .stop)
    {s t : State} (h : visit cx index n s = .ok () t) : t = s.reach index n := by
  have hnode : node cx n (s.reach index n) = .ok () (s.reach index n) := by
    rw [node_directive hn]
    rfl
  rcases visit_cases h with hok | ⟨p, u, hskip, -⟩
  · rw [hnode] at hok
    cases hok
    rfl
  · rw [hnode] at hskip
    cases hskip

/-- The parts of a pass that comes to its end: the nodes before the first routine, the routines,
    and its end. -/
theorem pass_parts {cx : Context} (hm : cx.mode = .assembling) {nodes : List Node} {s u : State}
    (h : pass cx (.ofNodes nodes) s = .ok () u) :
    ∃ t1 t2 index, visitAll cx 0 (Program.ofNodes nodes).preamble s = .ok () t1 ∧
      routines cx (Program.ofNodes nodes).preamble.length (Program.ofNodes nodes).routines t1 =
        .ok index t2 ∧
      Ended t2 u := by
  unfold pass at h
  obtain ⟨⟨⟩, t1, hpreamble, h⟩ := bind_ok h
  obtain ⟨index, t2, hroutines, h⟩ := bind_ok h
  refine ⟨t1, t2, index, hpreamble, hroutines, ?_⟩
  cases hc : (Program.ofNodes nodes).closing with
  | none =>
    rw [hc] at h
    exact endPass_ended hm h
  | some n =>
    rw [hc] at h
    obtain ⟨⟨⟩, t3, hvisit, h⟩ := bind_ok h
    obtain rfl := visit_stop (closing_stops hc) hvisit
    obtain ⟨himage, hglobals, hpacking, hdebug, htext, hdiagnostics, hclosed⟩ := endPass_ended hm h
    exact ⟨himage, hglobals, hpacking, hdebug, htext, hdiagnostics, hclosed⟩

/-- A pass that comes to its end is a chain of moves. -/
theorem pass_moves {cx : Context} (hm : cx.mode = .assembling) {program : Program} {s t1 t2 : State}
    {index : Nat} (hs : s.scope = none) (hpreamble : visitAll cx 0 program.preamble s = .ok () t1)
    (hroutines : routines cx program.preamble.length program.routines t1 = .ok index t2) :
    Moves cx s ((passWalks cx program s).flatMap Walk.moments) t2 ∧ t2.scope = none := by
  have hreads := visitAll_reads 0 _ hpreamble
  have hout := (hreads.later hm).outside hs
  obtain ⟨hmoves, hout'⟩ := routines_moves hm hout hroutines
  refine ⟨?_, hout'⟩
  unfold passWalks
  rw [hpreamble]
  simp only [List.flatMap_cons, Walk.moments, hout, Option.isSome_none, Bool.false_eq_true,
    if_false, List.append_nil]
  exact hreads.moves.trans hmoves

end ZAssembler.Assembly
