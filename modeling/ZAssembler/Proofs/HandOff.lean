import ZAssembler.Node.Json
import ZAssembler.Proofs.JsonLibrary

/-
  Programs survive the hand-off format. `Faithful` says of a reader and a writer of one kind of
  value that what is written reads back, unless it nests deeper than it may, and that what was read
  can be written within the same depth. The second part needs room of its own: a field that was left
  out is written, and an empty list takes a level.

  There is one statement for each kind of part, made of those for its fields, up to the nodes of a
  program (`Node.faithful`). They hold with every library that obeys the laws.
-/

namespace ZAssembler

open Json (orElse?)

/-! ## Readers and writers -/

/-- The reader and the writer fit together; what is read can be written within the same depth where
    that is at least `room`. -/
structure Faithful {α : Type} (read : Nat → Json → Option α) (write : α → Json) (room : Nat) :
    Prop where
  plain : ∀ x, (write x).isPlain = true
  reads : ∀ x d, read d (write x) = if (write x).depth ≤ d then some x else none
  within : ∀ {d j x}, room ≤ d → read d j = some x → (write x).depth ≤ d

section Combining

variable {α β : Type} {read : Nat → Json → Option α} {write : α → Json} {room : Nat}

theorem bind_reads {p : Prop} [Decidable p] (a : α) (f : α → Option β) :
    (if p then some a else none).bind f = if p then f a else none := by
  split <;> rfl

theorem map_reads {p : Prop} [Decidable p] (a : α) (f : α → β) :
    (if p then some a else none).map f = if p then some (f a) else none := by
  split <;> rfl

theorem reads_both {p q : Prop} [Decidable p] [Decidable q] (a : Option α) :
    (if p then (if q then a else none) else none) = if p ∧ q then a else none := by
  by_cases hp : p <;> by_cases hq : q <;> simp [hp, hq]

theorem Faithful.of_bind (hread : Faithful read write room) {d : Nat} (hd : room ≤ d)
    {field : Option Json} {x : α} (hx : field.bind (read d) = some x) : (write x).depth ≤ d := by
  obtain ⟨j, -, hj⟩ := Option.bind_eq_some_iff.mp hx
  exact hread.within hd hj

theorem Faithful.of_orElse (hread : Faithful read write room) {d : Nat} (hd : room ≤ d)
    {field : Option Json} {x missing : α} (hx : orElse? (read d) missing field = some x)
    (hmissing : (write missing).depth ≤ d) : (write x).depth ≤ d := by
  cases field with
  | none =>
    cases hx
    exact hmissing
  | some j => exact hread.within hd hx

end Combining

section Laws

variable {lib : Json.Library} (laws : lib.Laws)

include laws

section Combining

variable {α : Type} {read : Nat → Json → Option α} {write : α → Json} {room : Nat}

theorem Faithful.list (hread : Faithful read write room) :
    Faithful (lib.list? read) (lib.listOf write) (room + 1) where
  plain xs := by
    rw [Json.Library.listOf, laws.list_eq, Json.isPlain_array, List.all_map]
    exact List.all_eq_true.mpr fun x _ => hread.plain x
  reads xs d := by
    cases d with
    | zero => simp [Json.Library.list?, Json.Library.listOf, laws.writers]
    | succ d =>
      simp only [Json.Library.list?, Json.Library.listOf, laws.items?_written, Fin.val_last]
      simp only [laws.list_eq, Json.depth_array_le, List.forall_mem_map]
      induction xs with
      | nil => rfl
      | cons x xs ih =>
        rw [List.map_cons, List.mapM_cons, ih, hread.reads]
        simp only [Option.bind_eq_bind, bind_reads, reads_both, List.forall_mem_cons]
        rfl
  within := by
    intro d j xs hd hxs
    unfold Json.Library.list? at hxs
    split at hxs
    · next items inner hitems =>
      have hopens := laws.items?_opens hitems
      rw [Json.Library.listOf, laws.list_eq]
      refine Nat.le_trans ?_ (Nat.le_of_eq hopens)
      clear hitems
      rw [Json.depth_array_le, List.forall_mem_map]
      induction items generalizing xs with
      | nil =>
        cases hxs
        exact fun x hx => by cases hx
      | cons item items ih =>
        rw [List.mapM_cons] at hxs
        obtain ⟨x, hx, hxs⟩ := Option.bind_eq_some_iff.mp hxs
        obtain ⟨rest, hrest, heq⟩ := Option.bind_eq_some_iff.mp hxs
        cases heq
        exact List.forall_mem_cons.mpr ⟨hread.within (by omega) hx, ih hrest⟩
    · cases hxs

theorem Faithful.option (hread : Faithful read write room) (hnull : ∀ x, write x ≠ .null) :
    Faithful (lib.option? read) (lib.optionOf write) room where
  plain x := by
    cases x with
    | none => simp [Json.Library.optionOf, laws.null_eq]
    | some x => exact hread.plain x
  reads x d := by
    cases x with
    | none => simp [Json.Library.option?, Json.Library.optionOf, laws.null_eq, laws.isNull_iff]
    | some x =>
      have hsome : lib.isNull (write x) = false := by
        simpa using mt (laws.isNull_iff _).mp (hnull x)
      rw [Json.Library.option?, Json.Library.optionOf, Option.elim_some, hsome, hread.reads]
      exact map_reads x some
  within := by
    intro d j x hd hx
    unfold Json.Library.option? at hx
    split at hx
    · cases hx
      simp [Json.Library.optionOf, laws.null_eq]
    · obtain ⟨y, hy, rfl⟩ := Option.map_eq_some_iff.mp hx
      exact hread.within hd hy

end Combining

/-! ## Expressions -/

theorem faithful_text : Faithful (fun _ => lib.text?) lib.string 0 where
  plain s := by simp [laws.writers]
  reads s d := by simp [laws.text?_string, laws.writers]
  within _ _ := by simp [laws.writers]

namespace Expr

theorem write_ne_null (e : Expr) : e.write lib ≠ .null := by
  cases e <;> simp [write, laws.writers]

/-- Every expression is an object, which cannot be opened at depth zero. -/
theorem reads_zero (e : Expr) :
    read? lib 0 (e.write lib) = if (e.write lib).depth ≤ 0 then some e else none := by
  have hdepth : ¬(e.write lib).depth ≤ 0 := by cases e <;> simp [write, laws.writers]
  rw [if_neg hdepth, read?]
  cases e <;> simp only [write, laws.variant?_tagged_zero]

theorem faithful : Faithful (read? lib) (write lib) 0 where
  plain e := by
    induction e with
    | add left right hl hr => simp [write, laws.writers, hl, hr]
    | number value => simp [write, laws.writers]
    | symbol name => simp [write, laws.writers]
    | quote name => simp [write, laws.writers]
  reads e d := by
    induction e generalizing d with
    | number value =>
      cases d with
      | zero => exact reads_zero laws _
      | succ d =>
        rw [read?]
        simp only [write, laws.variant?_tagged, laws.int32?_written, Option.map_some]
        simp [laws.writers]
    | symbol name =>
      cases d with
      | zero => exact reads_zero laws _
      | succ d =>
        rw [read?]
        simp only [write, laws.variant?_tagged, laws.text?_written, Option.map_some]
        simp [laws.writers]
    | quote name =>
      cases d with
      | zero => exact reads_zero laws _
      | succ d =>
        rw [read?]
        simp only [write, laws.variant?_tagged, laws.text?_written, Option.map_some]
        simp [laws.writers]
    | add left right hl hr =>
      rcases d with _ | _ | d
      · exact reads_zero laws _
      · rw [read?]
        simp only [write, laws.variant?_tagged, Fin.val_last, Json.Library.items?_zero]
        simp [laws.writers]
      · rw [read?]
        simp only [write, laws.variant?_tagged, Fin.val_last, laws.items?_written, hl, hr,
          Option.bind_eq_bind, bind_reads, reads_both]
        simp [laws.writers]
  within := by
    intro d j e hroom he
    clear hroom
    fun_induction read? lib d j generalizing e with
    | case1 d j value inner hvariant =>
      obtain ⟨n, -, rfl⟩ := Option.map_eq_some_iff.mp he
      refine Nat.le_trans ?_ (Nat.le_of_eq (laws.variant?_opens hvariant))
      simp [write, laws.writers]
    | case2 d j name inner hvariant =>
      obtain ⟨s, -, rfl⟩ := Option.map_eq_some_iff.mp he
      refine Nat.le_trans ?_ (Nat.le_of_eq (laws.variant?_opens hvariant))
      simp [write, laws.writers]
    | case3 d j name inner hvariant =>
      obtain ⟨s, -, rfl⟩ := Option.map_eq_some_iff.mp he
      refine Nat.le_trans ?_ (Nat.le_of_eq (laws.variant?_opens hvariant))
      simp [write, laws.writers]
    | case4 d j sides inner hvariant left right deeper hitems ihl ihr =>
      obtain ⟨l, hl, he⟩ := Option.bind_eq_some_iff.mp he
      obtain ⟨r, hr, heq⟩ := Option.bind_eq_some_iff.mp he
      cases heq
      have hopens : deeper.val + 1 + 1 = d := by
        rw [laws.items?_opens hitems, laws.variant?_opens hvariant]
      refine Nat.le_trans ?_ (Nat.le_of_eq hopens)
      simp [write, laws.writers, ihl hl, ihr hr]
    | case5 => cases he
    | case6 => cases he

theorem faithful_option : Faithful (lib.option? (read? lib)) (lib.optionOf (write lib)) 0 :=
  (faithful laws).option laws (write_ne_null laws)

theorem faithful_list : Faithful (lib.list? (read? lib)) (lib.listOf (write lib)) 1 :=
  (faithful laws).list laws

end Expr

/-! ## Parts of nodes -/

/-- A list that was left out is written as an empty one, which takes a level. -/
theorem depth_empty_le {α : Type} (write : α → Json) {d : Nat} (hd : 1 ≤ d) :
    (lib.listOf write []).depth ≤ d := by
  rw [Json.Library.listOf, laws.list_eq]
  exact hd

/-- So is an option, which takes none. -/
theorem depth_none_le {α : Type} (write : α → Json) (d : Nat) :
    (lib.optionOf write none).depth ≤ d := by
  rw [Json.Library.optionOf, laws.null_eq]
  exact Nat.zero_le d

theorem Location.faithful : Faithful (Location.read? lib) (Location.write lib) 1 where
  plain l := by simp [write, laws.writers]
  reads l d := by
    cases d with
    | zero => simp [read?, write, laws.writers]
    | succ d =>
      have hfields : lib.fields? ["file", "line"] (d + 1) (l.write lib) =
          some ([some (lib.string l.file), some (lib.int l.line.toNat)], Fin.last d) :=
        laws.fields?_written _ [_, _] (by decide) rfl d
      simp only [read?, hfields, orElse?, laws.text?_written, laws.uint32?_written]
      simp [write, laws.writers]
  within := by
    intro d j l hd hl
    obtain ⟨inner, rfl⟩ : ∃ n, d = n + 1 := ⟨d - 1, by omega⟩
    simp [write, laws.writers]

theorem BranchTarget.faithful : Faithful (BranchTarget.read? lib) (BranchTarget.write lib) 1 where
  plain t := by cases t <;> simp [write, laws.writers]
  reads t d := by
    cases t with
    | returnTrue =>
      simp only [read?, write, laws.variant?_bare]
      simp [Json.Library.isBare, laws.writers]
    | returnFalse =>
      simp only [read?, write, laws.variant?_bare]
      simp [Json.Library.isBare, laws.writers]
    | label name =>
      cases d with
      | zero =>
        simp only [read?, write, laws.variant?_tagged_zero]
        simp [laws.writers]
      | succ d =>
        simp only [read?, write, laws.variant?_tagged, laws.text?_written, Option.bind_eq_bind,
          Option.bind_some]
        simp [laws.writers]
  within := by
    intro d j t hd ht
    obtain ⟨inner, rfl⟩ : ∃ n, d = n + 1 := ⟨d - 1, by omega⟩
    cases t <;> simp [write, laws.writers]

theorem Branch.faithful : Faithful (Branch.read? lib) (Branch.write lib) 2 where
  plain b := by simp [write, laws.writers, (BranchTarget.faithful laws).plain]
  reads b d := by
    cases d with
    | zero => simp [read?, write, laws.writers]
    | succ d =>
      have hfields : lib.fields? ["on_true", "target"] (d + 1) (b.write lib) =
          some ([some (lib.bool b.onTrue), some (b.target.write lib)], Fin.last d) :=
        laws.fields?_written _ [_, _] (by decide) rfl d
      simp only [read?, hfields, orElse?, laws.bool?_written, Option.bind_eq_bind, Option.bind_some,
        Fin.val_last, (BranchTarget.faithful laws).reads, bind_reads]
      simp [write, laws.writers]
  within := by
    intro d j b hd hb
    obtain ⟨inner, rfl⟩ : ∃ n, d = n + 2 := ⟨d - 2, by omega⟩
    have htarget : (b.target.write lib).depth ≤ inner + 1 := by
      cases b.target <;> simp [BranchTarget.write, laws.writers]
    simp [write, laws.writers, htarget]

theorem Branch.faithful_option :
    Faithful (lib.option? (Branch.read? lib)) (lib.optionOf (Branch.write lib)) 2 :=
  (Branch.faithful laws).option laws fun b => by simp [write, laws.writers]

theorem faithful_text_option :
    Faithful (lib.option? fun _ => lib.text?) (lib.optionOf lib.string) 0 :=
  (faithful_text laws).option laws fun s => by simp [laws.writers]

theorem LocalDecl.faithful : Faithful (LocalDecl.read? lib) (LocalDecl.write lib) 1 where
  plain l := by simp [write, laws.writers, (Expr.faithful_option laws).plain]
  reads l d := by
    cases d with
    | zero => simp [read?, write, laws.writers]
    | succ d =>
      have hfields : lib.fields? ["name", "default"] (d + 1) (l.write lib) =
          some ([some (lib.string l.name), some (lib.optionOf (Expr.write lib) l.default)],
            Fin.last d) :=
        laws.fields?_written _ [_, _] (by decide) rfl d
      simp only [read?, hfields, orElse?, laws.text?_written, Option.bind_eq_bind, Option.bind_some,
        Fin.val_last, (Expr.faithful_option laws).reads, bind_reads]
      simp [write, laws.writers]
  within := by
    intro d j l hd hl
    unfold LocalDecl.read? at hl
    split at hl
    · next name value inner hfields =>
      refine Nat.le_trans ?_ (Nat.le_of_eq (laws.fields?_opens hfields))
      obtain ⟨l1, -, hl⟩ := Option.bind_eq_some_iff.mp hl
      obtain ⟨l2, h2, heq⟩ := Option.bind_eq_some_iff.mp hl
      cases heq
      have hdefault := (Expr.faithful_option laws).of_orElse (Nat.zero_le _) h2
        (depth_none_le laws _ _)
      simp [write, laws.writers, hdefault]
    · cases hl

theorem Instruction.faithful : Faithful (Instruction.read? lib) (Instruction.write lib) 3 where
  plain i := by
    simp [write, laws.writers, (Expr.faithful_list laws).plain, (Expr.faithful_option laws).plain,
      (Branch.faithful_option laws).plain, (faithful_text_option laws).plain]
  reads i d := by
    cases d with
    | zero => simp [read?, write, laws.writers]
    | succ d =>
      have hfields : lib.fields? ["opcode", "operands", "store", "branch", "text"] (d + 1)
          (i.write lib) =
          some ([some (lib.string i.opcode), some (lib.listOf (Expr.write lib) i.operands),
            some (lib.optionOf (Expr.write lib) i.store),
            some (lib.optionOf (Branch.write lib) i.branch),
            some (lib.optionOf lib.string i.text)], Fin.last d) :=
        laws.fields?_written _ [_, _, _, _, _] (by decide) rfl d
      simp only [read?, hfields, orElse?, laws.text?_written, Option.bind_eq_bind, Option.bind_some,
        Fin.val_last, (Expr.faithful_list laws).reads, (Expr.faithful_option laws).reads,
        (Branch.faithful_option laws).reads, (faithful_text_option laws).reads, bind_reads,
        reads_both]
      simp [write, laws.record_eq, laws.string_eq]
  within := by
    intro d j i hd hi
    unfold Instruction.read? at hi
    split at hi
    · next opcode operands store branch text inner hfields =>
      have hopens := laws.fields?_opens hfields
      refine Nat.le_trans ?_ (Nat.le_of_eq hopens)
      obtain ⟨i1, -, hi⟩ := Option.bind_eq_some_iff.mp hi
      obtain ⟨i2, h2, hi⟩ := Option.bind_eq_some_iff.mp hi
      obtain ⟨i3, h3, hi⟩ := Option.bind_eq_some_iff.mp hi
      obtain ⟨i4, h4, hi⟩ := Option.bind_eq_some_iff.mp hi
      obtain ⟨i5, h5, heq⟩ := Option.bind_eq_some_iff.mp hi
      cases heq
      have hoperands := (Expr.faithful_list laws).of_orElse (by omega) h2
        (depth_empty_le laws _ (by omega))
      have hstore := (Expr.faithful_option laws).of_orElse (Nat.zero_le _) h3
        (depth_none_le laws _ _)
      have hbranch := (Branch.faithful_option laws).of_orElse (by omega) h4
        (depth_none_le laws _ _)
      have htext := (faithful_text_option laws).of_orElse (Nat.zero_le _) h5
        (depth_none_le laws _ _)
      simp [write, laws.writers, hoperands, hstore, hbranch, htext]
    · cases hi

/-! ## Debug directives -/

theorem DebugTable.faithful : Faithful (DebugTable.read? lib) (DebugTable.write lib) 0 where
  plain t := by simp [write, laws.writers]
  reads t d := by
    have hfind : all.find? (·.text == t.text) = some t := by cases t <;> rfl
    simp only [read?, write, laws.variant?_bare, Option.bind_eq_bind, Option.bind_some]
    simp [Json.Library.isBare, hfind, laws.writers]
  within _ _ := by simp [write, laws.writers]

namespace DebugDirective

theorem read?_members (p : SourcePoint) :
    SourcePoint.read? lib (some (lib.int p.file.toNat)) (some (lib.int p.line.toNat))
      (some (lib.int p.column.toNat)) = some p := by
  simp only [SourcePoint.read?, Option.bind_some, laws.uint16?_written, laws.uint32?_written,
    Option.bind_eq_bind]
  rfl

theorem fields?_point (p : SourcePoint) (d : Nat) :
    lib.fields? ["file", "line", "column"] (d + 1) (lib.record (p.members lib)) =
      some ([some (lib.int p.file.toNat), some (lib.int p.line.toNat),
        some (lib.int p.column.toNat)], Fin.last d) :=
  laws.fields?_written _ [_, _, _] (by decide) rfl d

theorem faithful_names : Faithful (lib.list? fun _ => lib.text?) (lib.listOf lib.string) 1 :=
  (faithful_text laws).list laws

theorem reads (x : DebugDirective) (d : Nat) :
    read? lib d (x.write lib) = if (x.write lib).depth ≤ d then some x else none := by
  rcases d with _ | _ | d
  · rw [if_neg (by cases x <;> simp [write, laws.writers]), read?]
    cases x <;> simp only [write, laws.variant?_tagged_zero] <;> rfl
  · rw [if_neg (by cases x <;> simp [write, laws.writers]), read?]
    cases x <;> simp [write, laws.variant?_tagged]
  · cases x with
    | file number includeName actualName =>
      have hfields : lib.fields? ["number", "include_name", "actual_name"] (d + 1)
          (lib.record [("number", lib.int number.toNat), ("include_name", lib.string includeName),
            ("actual_name", lib.string actualName)]) =
          some ([some (lib.int number.toNat), some (lib.string includeName),
            some (lib.string actualName)], Fin.last d) :=
        laws.fields?_written _ [_, _, _] (by decide) rfl d
      simp only [write, read?, laws.variant?_tagged, Option.bind_eq_bind, Option.bind_some,
        ↓reduceIte, Fin.val_last, hfields, laws.uint16?_written, laws.text?_written]
      simp [laws.writers]
    | line point =>
      simp only [write, read?, laws.variant?_tagged, Option.bind_eq_bind, Option.bind_some,
        ↓reduceIte, String.reduceEq, Fin.val_last, fields?_point laws, read?_members laws]
      simp [SourcePoint.members, laws.writers]
    | routine point name locals =>
      have hfields : lib.fields? ["file", "line", "column", "name", "locals"] (d + 1)
          (lib.record (point.members lib ++
            [("name", lib.string name), ("locals", lib.listOf lib.string locals)])) =
          some ([some (lib.int point.file.toNat), some (lib.int point.line.toNat),
            some (lib.int point.column.toNat), some (lib.string name),
            some (lib.listOf lib.string locals)], Fin.last d) :=
        laws.fields?_written _ [_, _, _, _, _] (by decide) rfl d
      simp only [write, read?, laws.variant?_tagged, Option.bind_eq_bind, Option.bind_some,
        ↓reduceIte, String.reduceEq, Fin.val_last, hfields, read?_members laws, laws.text?_written,
        orElse?, (faithful_names laws).reads, bind_reads]
      simp [SourcePoint.members, laws.writers]
    | routineEnd point =>
      simp only [write, read?, laws.variant?_tagged, Option.bind_eq_bind, Option.bind_some,
        ↓reduceIte, String.reduceEq, Fin.val_last, fields?_point laws, read?_members laws]
      simp [SourcePoint.members, laws.writers]
    | named table number name =>
      have hfields : lib.fields? ["table", "number", "name"] (d + 1)
          (lib.record [("table", table.write lib), ("number", number.write lib),
            ("name", lib.string name)]) =
          some ([some (table.write lib), some (number.write lib), some (lib.string name)],
            Fin.last d) :=
        laws.fields?_written _ [_, _, _] (by decide) rfl d
      simp only [write, read?, laws.variant?_tagged, Option.bind_eq_bind, Option.bind_some,
        ↓reduceIte, String.reduceEq, Fin.val_last, hfields, (DebugTable.faithful laws).reads,
        (Expr.faithful laws).reads, bind_reads, reads_both, laws.text?_written]
      simp [laws.writers]

theorem depth_of_read? {d : Nat} {j : Json} {x : DebugDirective} (hd : 3 ≤ d)
    (hx : read? lib d j = some x) : (x.write lib).depth ≤ d := by
  obtain ⟨⟨name, data⟩, hvariant, hdata⟩ := Option.bind_eq_some_iff.mp hx
  obtain ⟨⟨data, inner⟩, rfl, hread⟩ := Option.bind_eq_some_iff.mp hdata
  clear hx hdata
  have hopens := laws.variant?_opens hvariant
  obtain ⟨k, hk⟩ : ∃ k, inner.val = k + 1 := ⟨inner.val - 1, by omega⟩
  refine Nat.le_trans ?_ (Nat.le_of_eq hopens)
  rw [hk]
  dsimp only at hread
  by_cases hfile : name = "file"
  · rw [if_pos hfile] at hread
    split at hread
    · obtain ⟨x1, -, hread⟩ := Option.bind_eq_some_iff.mp hread
      obtain ⟨x2, -, hread⟩ := Option.bind_eq_some_iff.mp hread
      obtain ⟨x3, -, heq⟩ := Option.bind_eq_some_iff.mp hread
      cases heq
      simp [write, laws.writers]
    · cases hread
  rw [if_neg hfile] at hread
  by_cases hline : name = "line"
  · rw [if_pos hline] at hread
    split at hread
    · obtain ⟨x1, -, heq⟩ := Option.bind_eq_some_iff.mp hread
      cases heq
      simp [write, SourcePoint.members, laws.writers]
    · cases hread
  rw [if_neg hline] at hread
  by_cases hroutine : name = "routine"
  · rw [if_pos hroutine] at hread
    split at hread
    · next f l c title locals deeper hfields =>
      have hdeeper := laws.fields?_opens hfields
      obtain ⟨x1, -, hread⟩ := Option.bind_eq_some_iff.mp hread
      obtain ⟨x2, -, hread⟩ := Option.bind_eq_some_iff.mp hread
      obtain ⟨x3, h3, heq⟩ := Option.bind_eq_some_iff.mp hread
      cases heq
      have hlocals := (faithful_names laws).of_orElse (by omega) h3
        (depth_empty_le laws _ (by omega))
      rw [show deeper.val = k by omega] at hlocals
      simp [write, SourcePoint.members, laws.writers, hlocals]
    · cases hread
  rw [if_neg hroutine] at hread
  by_cases hend : name = "routine_end"
  · rw [if_pos hend] at hread
    split at hread
    · obtain ⟨x1, -, heq⟩ := Option.bind_eq_some_iff.mp hread
      cases heq
      simp [write, SourcePoint.members, laws.writers]
    · cases hread
  rw [if_neg hend] at hread
  by_cases hnamed : name = "named"
  · rw [if_pos hnamed] at hread
    split at hread
    · next table number thing deeper hfields =>
      have hdeeper := laws.fields?_opens hfields
      obtain ⟨x1, -, hread⟩ := Option.bind_eq_some_iff.mp hread
      obtain ⟨x2, h2, hread⟩ := Option.bind_eq_some_iff.mp hread
      obtain ⟨x3, -, heq⟩ := Option.bind_eq_some_iff.mp hread
      cases heq
      have hnumber := (Expr.faithful laws).of_bind (Nat.zero_le _) h2
      rw [show deeper.val = k by omega] at hnumber
      simp [write, DebugTable.write, laws.writers, hnumber]
    · cases hread
  rw [if_neg hnamed] at hread
  cases hread

theorem faithful : Faithful (read? lib) (write lib) 3 where
  plain x := by
    cases x <;> simp [write, SourcePoint.members, laws.writers, (Expr.faithful laws).plain,
      (DebugTable.faithful laws).plain, (faithful_names laws).plain]
  reads := reads laws
  within := depth_of_read? laws

end DebugDirective

/-! ## Directives -/

theorem ObjectEntry.faithful : Faithful (ObjectEntry.read? lib) (ObjectEntry.write lib) 2 where
  plain o := by
    simp [write, laws.writers, (Expr.faithful laws).plain, (Expr.faithful_list laws).plain]
  reads o d := by
    cases d with
    | zero => simp [read?, write, laws.writers]
    | succ d =>
      have hfields : lib.fields? ["name", "flags", "parent", "sibling", "child", "properties"]
          (d + 1) (o.write lib) =
          some ([some (lib.string o.name), some (lib.listOf (Expr.write lib) o.flags),
            some (o.parent.write lib), some (o.sibling.write lib), some (o.child.write lib),
            some (o.properties.write lib)], Fin.last d) :=
        laws.fields?_written _ [_, _, _, _, _, _] (by decide) rfl d
      simp only [read?, hfields, laws.text?_written, Option.bind_eq_bind, Option.bind_some,
        Fin.val_last, (Expr.faithful_list laws).reads, (Expr.faithful laws).reads, bind_reads,
        reads_both]
      simp [write, laws.writers]
  within := by
    intro d j o hd ho
    unfold ObjectEntry.read? at ho
    split at ho
    · next name flags parent sibling child properties inner hfields =>
      have hopens := laws.fields?_opens hfields
      refine Nat.le_trans ?_ (Nat.le_of_eq hopens)
      obtain ⟨o1, -, ho⟩ := Option.bind_eq_some_iff.mp ho
      obtain ⟨o2, h2, ho⟩ := Option.bind_eq_some_iff.mp ho
      obtain ⟨o3, h3, ho⟩ := Option.bind_eq_some_iff.mp ho
      obtain ⟨o4, h4, ho⟩ := Option.bind_eq_some_iff.mp ho
      obtain ⟨o5, h5, ho⟩ := Option.bind_eq_some_iff.mp ho
      obtain ⟨o6, h6, heq⟩ := Option.bind_eq_some_iff.mp ho
      cases heq
      have hflags := (Expr.faithful_list laws).of_bind (by omega) h2
      have hparent := (Expr.faithful laws).of_bind (Nat.zero_le _) h3
      have hsibling := (Expr.faithful laws).of_bind (Nat.zero_le _) h4
      have hchild := (Expr.faithful laws).of_bind (Nat.zero_le _) h5
      have hproperties := (Expr.faithful laws).of_bind (Nat.zero_le _) h6
      simp [write, laws.writers, hflags, hparent, hsibling, hchild, hproperties]
    · cases ho

namespace Directive

/-- A record of two fields. -/
def writePair {α β : Type} (lib : Json.Library) (first second : String) (writeFirst : α → Json)
    (writeSecond : β → Json) (p : α × β) : Json :=
  lib.record [(first, writeFirst p.1), (second, writeSecond p.2)]

section Pairs

variable {α β : Type} {readFirst : Nat → Json → Option α} {writeFirst : α → Json} {roomFirst : Nat}
  {readSecond : Nat → Option Json → Option β} {writeSecond : β → Json} {roomSecond room : Nat}

theorem faithful_pair {first second : String} (hne : first ≠ second)
    (hfirst : Faithful readFirst writeFirst roomFirst)
    (hsecond : Faithful (fun d j => readSecond d (some j)) writeSecond roomSecond)
    (hmissing : ∀ {d y}, roomSecond ≤ d → readSecond d none = some y → (writeSecond y).depth ≤ d)
    (hroom : roomFirst + 1 ≤ room ∧ roomSecond + 1 ≤ room) :
    Faithful (pair? lib first second readFirst readSecond)
      (writePair lib first second writeFirst writeSecond) room where
  plain p := by simp [writePair, laws.writers, hfirst.plain, hsecond.plain]
  reads p d := by
    cases d with
    | zero => simp [pair?, writePair, laws.writers]
    | succ d =>
      have hfields : lib.fields? [first, second] (d + 1)
          (writePair lib first second writeFirst writeSecond p) =
          some ([some (writeFirst p.1), some (writeSecond p.2)], Fin.last d) :=
        laws.fields?_written _ [_, _] (by simp [hne]) rfl d
      have hreads := hsecond.reads p.2 d
      simp only [pair?, hfields, Option.bind_eq_bind, Fin.val_last, hfirst.reads, hreads,
        bind_reads, reads_both]
      simp [writePair, laws.writers]
  within := by
    intro d data p hd hp
    unfold pair? at hp
    split at hp
    · next a b inner hfields =>
      have hopens := laws.fields?_opens hfields
      refine Nat.le_trans ?_ (Nat.le_of_eq hopens)
      obtain ⟨x, hx, hp⟩ := Option.bind_eq_some_iff.mp hp
      obtain ⟨y, hy, heq⟩ := Option.bind_eq_some_iff.mp hp
      cases heq
      have hwithin : (writeSecond y).depth ≤ inner := by
        cases b with
        | none => exact hmissing (by omega) hy
        | some j => exact hsecond.within (by omega) hy
      simp [writePair, laws.writers, hfirst.within (by omega) hx, hwithin]
    · cases hp

/-- Both fields have to be there. -/
theorem faithful_both {first second : String} (hne : first ≠ second)
    (hfirst : Faithful readFirst writeFirst roomFirst)
    {readSecond : Nat → Json → Option β} (hsecond : Faithful readSecond writeSecond roomSecond)
    (hroom : roomFirst + 1 ≤ room ∧ roomSecond + 1 ≤ room) :
    Faithful (pair? lib first second readFirst (needed? readSecond))
      (writePair lib first second writeFirst writeSecond) room :=
  faithful_pair laws hne hfirst hsecond (fun _ h => by cases h) hroom

end Pairs

theorem faithful_size :
    Faithful (size? lib) (fun size => lib.record [("size", lib.optionOf (Expr.write lib) size)])
      1 where
  plain size := by simp [laws.writers, (Expr.faithful_option laws).plain]
  reads size d := by
    cases d with
    | zero => simp [size?, laws.writers]
    | succ d =>
      have hfields : lib.fields? ["size"] (d + 1)
          (lib.record [("size", lib.optionOf (Expr.write lib) size)]) =
          some ([some (lib.optionOf (Expr.write lib) size)], Fin.last d) :=
        laws.fields?_written _ [_] (by decide) rfl d
      simp only [size?, hfields, orElse?, Fin.val_last, (Expr.faithful_option laws).reads]
      simp [laws.writers]
  within := by
    intro d data size hd hsize
    unfold size? at hsize
    split at hsize
    · next hfields =>
      refine Nat.le_trans ?_ (Nat.le_of_eq (laws.fields?_opens hfields))
      have hwithin := (Expr.faithful_option laws).of_orElse (Nat.zero_le _) hsize
        (depth_none_le laws _ _)
      simp [laws.writers, hwithin]
    · cases hsize

/-- How directives of one kind are written: under their name stands the data of which they are
    made. -/
structure Form {α : Type} (lib : Json.Library) (name : String) (make : α → Directive)
    (read : Nat → Json → Option α) (write : α → Json) (room : Nat) : Prop where
  faithful : Faithful read write room
  written : ∀ v, (make v).write lib = lib.tagged name (write v)
  notBare : bare? name = none
  reading : ∀ d data, withData? lib d name data = (read d data).map make

namespace Form

variable {α : Type} {name : String} {make : α → Directive} {read : Nat → Json → Option α}
  {write : α → Json} {room : Nat}

theorem plain (f : Form lib name make read write room) (v : α) :
    ((make v).write lib).isPlain = true := by
  simp [f.written, laws.writers, f.faithful.plain]

theorem reads (f : Form lib name make read write room) (v : α) (d : Nat) :
    read? lib d ((make v).write lib) =
      if ((make v).write lib).depth ≤ d then some (make v) else none := by
  rw [f.written, read?]
  cases d with
  | zero =>
    simp only [laws.variant?_tagged_zero]
    simp [laws.writers]
  | succ d =>
    simp only [laws.variant?_tagged, Option.bind_eq_bind, Option.bind_some, f.notBare, f.reading,
      Fin.val_last, f.faithful.reads, map_reads]
    simp [laws.writers]

theorem within (f : Form lib name make read write room) {d : Nat} {data : Json} {x : Directive}
    (hd : room ≤ d) (hx : withData? lib d name data = some x) : (x.write lib).depth ≤ d + 1 := by
  rw [f.reading] at hx
  obtain ⟨v, hv, rfl⟩ := Option.map_eq_some_iff.mp hx
  simp [f.written, laws.writers, f.faithful.within hd hv]

end Form

theorem form_new : Form lib "new" new (Expr.read? lib) (Expr.write lib) 0 :=
  ⟨Expr.faithful laws, fun _ => rfl, rfl, fun _ _ => rfl⟩

theorem form_byte :
    Form lib "byte" byte (lib.list? (Expr.read? lib)) (lib.listOf (Expr.write lib)) 1 :=
  ⟨Expr.faithful_list laws, fun _ => rfl, rfl, fun _ _ => rfl⟩

theorem form_word :
    Form lib "word" word (lib.list? (Expr.read? lib)) (lib.listOf (Expr.write lib)) 1 :=
  ⟨Expr.faithful_list laws, fun _ => rfl, rfl, fun _ _ => rfl⟩

theorem form_str : Form lib "str" str (fun _ => lib.text?) lib.string 0 :=
  ⟨faithful_text laws, fun _ => rfl, rfl, fun _ _ => rfl⟩

theorem form_strl : Form lib "strl" strl (fun _ => lib.text?) lib.string 0 :=
  ⟨faithful_text laws, fun _ => rfl, rfl, fun _ _ => rfl⟩

theorem form_len : Form lib "len" len (fun _ => lib.text?) lib.string 0 :=
  ⟨faithful_text laws, fun _ => rfl, rfl, fun _ _ => rfl⟩

theorem form_zword : Form lib "zword" zword (fun _ => lib.text?) lib.string 0 :=
  ⟨faithful_text laws, fun _ => rfl, rfl, fun _ _ => rfl⟩

theorem form_object :
    Form lib "object" object (ObjectEntry.read? lib) (ObjectEntry.write lib) 2 :=
  ⟨ObjectEntry.faithful laws, fun _ => rfl, rfl, fun _ _ => rfl⟩

theorem form_debug :
    Form lib "debug" debug (DebugDirective.read? lib) (DebugDirective.write lib) 3 :=
  ⟨DebugDirective.faithful laws, fun _ => rfl, rfl, fun _ _ => rfl⟩

theorem form_table : Form lib "table" table (size? lib)
    (fun size => lib.record [("size", lib.optionOf (Expr.write lib) size)]) 1 :=
  ⟨faithful_size laws, fun _ => rfl, rfl, fun _ _ => rfl⟩

theorem form_funct : Form lib "funct" (fun p => funct p.1 p.2)
    (pair? lib "name" "locals" (fun _ => lib.text?) fun d =>
      orElse? (lib.list? (LocalDecl.read? lib) d) [])
    (writePair lib "name" "locals" lib.string (lib.listOf (LocalDecl.write lib))) 3 where
  faithful := by
    have hlocals := (LocalDecl.faithful laws).list laws
    exact faithful_pair laws (by decide) (faithful_text laws) hlocals
      (fun hd h => hlocals.of_orElse hd h (depth_empty_le laws _ (by omega))) (by decide)
  written _ := rfl
  notBare := rfl
  reading _ _ := rfl

theorem form_gvar : Form lib "gvar" (fun p => gvar p.1 p.2)
    (pair? lib "name" "default" (fun _ => lib.text?) fun d =>
      orElse? (lib.option? (Expr.read? lib) d) none)
    (writePair lib "name" "default" lib.string (lib.optionOf (Expr.write lib))) 1 where
  faithful := by
    have hdefault := Expr.faithful_option laws
    exact faithful_pair laws (by decide) (faithful_text laws) hdefault
      (fun hd h => hdefault.of_orElse hd h (depth_none_le laws _ _)) (by decide)
  written _ := rfl
  notBare := rfl
  reading _ _ := rfl

theorem form_gstr : Form lib "gstr" (fun p => gstr p.1 p.2)
    (pair? lib "name" "text" (fun _ => lib.text?) (needed? fun _ => lib.text?))
    (writePair lib "name" "text" lib.string lib.string) 1 :=
  ⟨faithful_both laws (by decide) (faithful_text laws) (faithful_text laws) (by decide),
    fun _ => rfl, rfl, fun _ _ => rfl⟩

theorem form_fstr : Form lib "fstr" (fun p => fstr p.1 p.2)
    (pair? lib "name" "text" (fun _ => lib.text?) (needed? fun _ => lib.text?))
    (writePair lib "name" "text" lib.string lib.string) 1 :=
  ⟨faithful_both laws (by decide) (faithful_text laws) (faithful_text laws) (by decide),
    fun _ => rfl, rfl, fun _ _ => rfl⟩

theorem form_equal : Form lib "equal" (fun p => equal p.1 p.2)
    (pair? lib "name" "value" (fun _ => lib.text?) (needed? (Expr.read? lib)))
    (writePair lib "name" "value" lib.string (Expr.write lib)) 1 :=
  ⟨faithful_both laws (by decide) (faithful_text laws) (Expr.faithful laws) (by decide),
    fun _ => rfl, rfl, fun _ _ => rfl⟩

theorem form_vocbeg : Form lib "vocbeg" (fun p => vocbeg p.1 p.2)
    (pair? lib "record_size" "key_size" (Expr.read? lib) (needed? (Expr.read? lib)))
    (writePair lib "record_size" "key_size" (Expr.write lib) (Expr.write lib)) 1 :=
  ⟨faithful_both laws (by decide) (Expr.faithful laws) (Expr.faithful laws) (by decide),
    fun _ => rfl, rfl, fun _ _ => rfl⟩

theorem form_prop : Form lib "prop" (fun p => prop p.1 p.2)
    (pair? lib "size" "number" (Expr.read? lib) (needed? (Expr.read? lib)))
    (writePair lib "size" "number" (Expr.write lib) (Expr.write lib)) 1 :=
  ⟨faithful_both laws (by decide) (Expr.faithful laws) (Expr.faithful laws) (by decide),
    fun _ => rfl, rfl, fun _ _ => rfl⟩

/-- A directive without data is its name. -/
theorem write_of_bare {name : String} {x : Directive} (hx : bare? name = some x) :
    x.write lib = .string name := by
  unfold bare? at hx
  split at hx <;> cases hx <;> exact laws.bare_eq _

/-- A directive is written as its name, or has a form. -/
theorem bare_or_form (x : Directive) : (∃ name, bare? name = some x) ∨
    ∃ (α : Type) (name : String) (make : α → Directive) (r : Nat → Json → Option α)
      (w : α → Json) (room : Nat) (v : α), Form lib name make r w room ∧ make v = x := by
  cases x with
  | new version => exact .inr ⟨_, _, _, _, _, _, version, form_new laws, rfl⟩
  | funct name locals => exact .inr ⟨_, _, _, _, _, _, (name, locals), form_funct laws, rfl⟩
  | byte values => exact .inr ⟨_, _, _, _, _, _, values, form_byte laws, rfl⟩
  | word values => exact .inr ⟨_, _, _, _, _, _, values, form_word laws, rfl⟩
  | str text => exact .inr ⟨_, _, _, _, _, _, text, form_str laws, rfl⟩
  | strl text => exact .inr ⟨_, _, _, _, _, _, text, form_strl laws, rfl⟩
  | len text => exact .inr ⟨_, _, _, _, _, _, text, form_len laws, rfl⟩
  | zword text => exact .inr ⟨_, _, _, _, _, _, text, form_zword laws, rfl⟩
  | gstr name text => exact .inr ⟨_, _, _, _, _, _, (name, text), form_gstr laws, rfl⟩
  | fstr name text => exact .inr ⟨_, _, _, _, _, _, (name, text), form_fstr laws, rfl⟩
  | equal name value => exact .inr ⟨_, _, _, _, _, _, (name, value), form_equal laws, rfl⟩
  | gvar name value => exact .inr ⟨_, _, _, _, _, _, (name, value), form_gvar laws, rfl⟩
  | table size => exact .inr ⟨_, _, _, _, _, _, size, form_table laws, rfl⟩
  | vocbeg recordSize keySize =>
    exact .inr ⟨_, _, _, _, _, _, (recordSize, keySize), form_vocbeg laws, rfl⟩
  | object entry => exact .inr ⟨_, _, _, _, _, _, entry, form_object laws, rfl⟩
  | prop size number => exact .inr ⟨_, _, _, _, _, _, (size, number), form_prop laws, rfl⟩
  | debug directive => exact .inr ⟨_, _, _, _, _, _, directive, form_debug laws, rfl⟩
  | stop => exact .inl ⟨"end", rfl⟩
  | endt => exact .inl ⟨"endt", rfl⟩
  | vocend => exact .inl ⟨"vocend", rfl⟩
  | pdef => exact .inl ⟨"pdef", rfl⟩
  | time => exact .inl ⟨"time", rfl⟩
  | sound => exact .inl ⟨"sound", rfl⟩

theorem faithful : Faithful (read? lib) (write lib) 5 where
  plain x := by
    obtain ⟨name, hname⟩ | ⟨_, _, _, _, _, _, v, hform, rfl⟩ := bare_or_form laws x
    · rw [write_of_bare laws hname, Json.isPlain_string]
    · exact hform.plain laws v
  reads x d := by
    obtain ⟨name, hname⟩ | ⟨_, _, _, _, _, _, v, hform, rfl⟩ := bare_or_form laws x
    · rw [write_of_bare laws hname, read?, laws.variant?_string]
      simp [hname, Json.Library.isBare]
    · exact hform.reads laws v d
  within := by
    intro d j x hd hx
    obtain ⟨⟨name, data⟩, hvariant, hread⟩ := Option.bind_eq_some_iff.mp hx
    clear hx
    dsimp only at hread
    cases hbare : bare? name with
    | some directive =>
      rw [hbare] at hread
      dsimp only at hread
      split at hread
      · cases hread
        rw [write_of_bare laws hbare]
        exact Nat.zero_le d
      · cases hread
    | none =>
      rw [hbare] at hread
      dsimp only at hread
      obtain ⟨⟨data, inner⟩, rfl, hread⟩ := Option.bind_eq_some_iff.mp hread
      have hopens := laws.variant?_opens hvariant
      refine Nat.le_trans ?_ (Nat.le_of_eq hopens)
      unfold withData? at hread
      split at hread
      · exact (form_new laws).within laws (by omega) hread
      · exact (form_funct laws).within laws (by omega) hread
      · exact (form_byte laws).within laws (by omega) hread
      · exact (form_word laws).within laws (by omega) hread
      · exact (form_str laws).within laws (by omega) hread
      · exact (form_strl laws).within laws (by omega) hread
      · exact (form_len laws).within laws (by omega) hread
      · exact (form_zword laws).within laws (by omega) hread
      · exact (form_gstr laws).within laws (by omega) hread
      · exact (form_fstr laws).within laws (by omega) hread
      · exact (form_equal laws).within laws (by omega) hread
      · exact (form_gvar laws).within laws (by omega) hread
      · exact (form_table laws).within laws (by omega) hread
      · exact (form_vocbeg laws).within laws (by omega) hread
      · exact (form_object laws).within laws (by omega) hread
      · exact (form_prop laws).within laws (by omega) hread
      · exact (form_debug laws).within laws (by omega) hread
      · cases hread

end Directive

/-! ## Nodes -/

theorem NodeKind.faithful : Faithful (NodeKind.read? lib) (NodeKind.write lib) 6 where
  plain k := by
    cases k <;> simp [write, laws.writers, (Directive.faithful laws).plain,
      (Instruction.faithful laws).plain]
  reads k d := by
    cases d with
    | zero =>
      rw [if_neg (by cases k <;> simp [write, laws.writers]), read?]
      cases k <;> simp only [write, laws.variant?_tagged_zero] <;> rfl
    | succ d =>
      cases k with
      | directive x =>
        simp only [write, read?, laws.variant?_tagged, Option.bind_eq_bind, Option.bind_some,
          ↓reduceIte, Fin.val_last, (Directive.faithful laws).reads, map_reads]
        simp [laws.writers]
      | instruction i =>
        simp only [write, read?, laws.variant?_tagged, Option.bind_eq_bind, Option.bind_some,
          ↓reduceIte, String.reduceEq, Fin.val_last, (Instruction.faithful laws).reads, map_reads]
        simp [laws.writers]
      | globalLabel name =>
        simp only [write, read?, laws.variant?_tagged, Option.bind_eq_bind, Option.bind_some,
          ↓reduceIte, String.reduceEq, laws.text?_written, Option.map_some]
        simp [laws.writers]
      | localLabel name =>
        simp only [write, read?, laws.variant?_tagged, Option.bind_eq_bind, Option.bind_some,
          ↓reduceIte, String.reduceEq, laws.text?_written, Option.map_some]
        simp [laws.writers]
  within := by
    intro d j k hd hk
    obtain ⟨⟨name, data⟩, hvariant, hdata⟩ := Option.bind_eq_some_iff.mp hk
    obtain ⟨⟨data, inner⟩, rfl, hread⟩ := Option.bind_eq_some_iff.mp hdata
    clear hk hdata
    have hopens := laws.variant?_opens hvariant
    refine Nat.le_trans ?_ (Nat.le_of_eq hopens)
    dsimp only at hread
    by_cases hdirective : name = "directive"
    · rw [if_pos hdirective] at hread
      obtain ⟨x, hx, rfl⟩ := Option.map_eq_some_iff.mp hread
      simp [write, laws.writers, (Directive.faithful laws).within (by omega) hx]
    rw [if_neg hdirective] at hread
    by_cases hinstruction : name = "instruction"
    · rw [if_pos hinstruction] at hread
      obtain ⟨i, hi, rfl⟩ := Option.map_eq_some_iff.mp hread
      simp [write, laws.writers, (Instruction.faithful laws).within (by omega) hi]
    rw [if_neg hinstruction] at hread
    by_cases hglobal : name = "global_label"
    · rw [if_pos hglobal] at hread
      obtain ⟨label, -, rfl⟩ := Option.map_eq_some_iff.mp hread
      simp [write, laws.writers]
    rw [if_neg hglobal] at hread
    by_cases hlocal : name = "local_label"
    · rw [if_pos hlocal] at hread
      obtain ⟨label, -, rfl⟩ := Option.map_eq_some_iff.mp hread
      simp [write, laws.writers]
    rw [if_neg hlocal] at hread
    cases hread

namespace Node

theorem faithful : Faithful (read? lib) (write lib) 7 where
  plain n := by
    simp [write, laws.writers, (NodeKind.faithful laws).plain, (Location.faithful laws).plain]
  reads n d := by
    cases d with
    | zero => simp [read?, write, laws.writers]
    | succ d =>
      have hfields : lib.fields? ["kind", "location"] (d + 1) (n.write lib) =
          some ([some (n.kind.write lib), some (n.location.write lib)], Fin.last d) :=
        laws.fields?_written _ [_, _] (by decide) rfl d
      simp only [read?, hfields, orElse?, Option.bind_eq_bind, Option.bind_some, Fin.val_last,
        (NodeKind.faithful laws).reads, (Location.faithful laws).reads, bind_reads, reads_both]
      simp [write, laws.writers]
  within := by
    intro d j n hd hn
    unfold Node.read? at hn
    split at hn
    · next kind location inner hfields =>
      have hopens := laws.fields?_opens hfields
      refine Nat.le_trans ?_ (Nat.le_of_eq hopens)
      obtain ⟨n1, h1, hn⟩ := Option.bind_eq_some_iff.mp hn
      obtain ⟨n2, h2, heq⟩ := Option.bind_eq_some_iff.mp hn
      cases heq
      have hmissing : (Location.write lib {}).depth ≤ inner.val := by
        obtain ⟨k, hk⟩ : ∃ k, inner.val = k + 1 := ⟨inner.val - 1, by omega⟩
        rw [hk]
        simp [Location.write, laws.writers]
      have hkind := (NodeKind.faithful laws).of_bind (by omega) h1
      have hlocation := (Location.faithful laws).of_orElse (by omega) h2 hmissing
      simp [write, laws.writers, hkind, hlocation]
    · cases hn

theorem faithful_list : Faithful (lib.list? (read? lib)) (lib.listOf (write lib)) 8 :=
  (faithful laws).list laws

theorem readText?_writeText (nodes : List Node) :
    readText? lib (writeText lib nodes) =
      if (lib.listOf (write lib) nodes).depth ≤ 127 then some nodes else none := by
  rw [readText?, writeText, laws.parse?_print _ ((faithful_list laws).plain nodes),
    Option.bind_some, (faithful_list laws).reads, laws.limit_eq]

/-- Nodes that were read are written within the limit: what their text left out takes no more levels
    than the limit leaves. -/
theorem depth_of_readText? {text : String} {nodes : List Node}
    (hread : readText? lib text = some nodes) :
    (lib.listOf (write lib) nodes).depth ≤ 127 := by
  obtain ⟨j, -, hj⟩ := Option.bind_eq_some_iff.mp hread
  rw [laws.limit_eq] at hj
  exact (faithful_list laws).within (by decide) hj

end Node

end Laws

namespace Node

/-- With a library that obeys the laws, a program reads back from its text as it was written, unless
    it nests more than 127 deep, which is refused; a program that was read from any text never
    does. -/
theorem text_round_trips {lib : Json.Library} (laws : lib.Laws) (nodes : List Node) :
    (readText? lib (writeText lib nodes) =
      if (lib.listOf (write lib) nodes).depth ≤ 127 then some nodes else none) ∧
    ∀ text, readText? lib text = some nodes → readText? lib (writeText lib nodes) = some nodes := by
  refine ⟨readText?_writeText laws nodes, fun text hread => ?_⟩
  rw [readText?_writeText laws, if_pos (depth_of_readText? laws hread)]

/-- An instruction whose fields are left out and a label whose fields are given in order. -/
def sparseText : String :=
  "[\x7b\"kind\":\x7b\"instruction\":[\"QUIT\"]\x7d\x7d, [\x7b\"local_label\":\"\\u00e9\"\x7d]]"

/-- With the library of the program. -/
theorem sparse_text_round_trips :
    listOfText? sparseText =
      some [{ kind := .instruction { opcode := "QUIT" } }, { kind := .localLabel "é" }] ∧
    listOfText? (listToText [{ kind := .instruction { opcode := "QUIT" } },
        { kind := .localLabel "é" }]) =
      some [{ kind := .instruction { opcode := "QUIT" } }, { kind := .localLabel "é" }] := by
  have hread : listOfText? sparseText =
      some [{ kind := .instruction { opcode := "QUIT" } }, { kind := .localLabel "é" }] := by
    decide +kernel
  exact ⟨hread, (text_round_trips Json.laws_library _).2 _ hread⟩

end Node

end ZAssembler
