import ZAssembler.Json.Library
import ZAssembler.Proofs.JsonText

/-
  What a library for JSON has to do for the formats that are built on it (`Library.Laws`): its texts
  read back, values may nest to a certain depth, and there is one shape for each of lists, records
  and variants, in which they are written and from which they are read. Readers may accept other
  shapes too, as long as they count the arrays and objects that they open. The library of the
  program is one of these (`laws_library`).
-/

namespace ZAssembler.Json

/-! ## Depths and plain values -/

@[simp] theorem depth_array_le {items : List Json} {d : Nat} :
    (Json.array items).depth ≤ d + 1 ↔ ∀ j ∈ items, j.depth ≤ d := by
  have hitems : depthItems items ≤ d ↔ ∀ j ∈ items, j.depth ≤ d := by
    induction items with
    | nil => simp [depthItems]
    | cons item rest ih => rw [depthItems, Nat.max_le, ih, List.forall_mem_cons]
  rw [← hitems, depth]
  omega

@[simp] theorem depth_object_le {members : List (String × Json)} {d : Nat} :
    (Json.object members).depth ≤ d + 1 ↔ ∀ m ∈ members, m.2.depth ≤ d := by
  have hmembers : depthMembers members ≤ d ↔ ∀ m ∈ members, m.2.depth ≤ d := by
    induction members with
    | nil => simp [depthMembers]
    | cons m rest ih => rw [depthMembers, Nat.max_le, ih, List.forall_mem_cons]
  rw [← hmembers, depth]
  omega

@[simp] theorem depth_array_ne_zero (items : List Json) : (Json.array items).depth ≠ 0 := by
  rw [depth]
  omega

@[simp] theorem depth_object_ne_zero (members : List (String × Json)) :
    (Json.object members).depth ≠ 0 := by
  rw [depth]
  omega

@[simp] theorem depth_string (s : String) : (Json.string s).depth = 0 := rfl

@[simp] theorem depth_int (n : Int) : (Json.int n).depth = 0 := rfl

@[simp] theorem depth_bool (b : Bool) : (Json.bool b).depth = 0 := rfl

@[simp] theorem depth_null : Json.null.depth = 0 := rfl

@[simp] theorem isPlain_string (s : String) : (Json.string s).isPlain = true := rfl

@[simp] theorem isPlain_bool (b : Bool) : (Json.bool b).isPlain = true := rfl

@[simp] theorem isPlain_null : Json.null.isPlain = true := rfl

theorem isPlain_int {n : Int} (hlow : -2 ^ 63 ≤ n) (hhigh : n < 2 ^ 63) :
    (Json.int n).isPlain = true := by
  rw [isPlain]
  exact decide_eq_true ⟨hlow, hhigh⟩

@[simp] theorem isPlain_int32 (n : Int32) : (Json.int n.toInt).isPlain = true :=
  isPlain_int (by have := n.le_toInt; omega) (by have := n.toInt_lt; omega)

@[simp] theorem isPlain_uint16 (n : UInt16) : (Json.int n.toNat).isPlain = true :=
  isPlain_int (by omega) (by have := n.toNat_lt; omega)

@[simp] theorem isPlain_uint32 (n : UInt32) : (Json.int n.toNat).isPlain = true :=
  isPlain_int (by omega) (by have := n.toNat_lt; omega)

@[simp] theorem isPlain_array (items : List Json) :
    (Json.array items).isPlain = items.all isPlain := by
  rw [isPlain]
  induction items with
  | nil => rfl
  | cons item rest ih => rw [arePlain, ih, List.all_cons]

@[simp] theorem isPlain_object (members : List (String × Json)) :
    (Json.object members).isPlain = members.all (·.2.isPlain) := by
  rw [isPlain]
  induction members with
  | nil => rfl
  | cons m rest ih => rw [membersPlain, ih, List.all_cons]

/-! ## Laws -/

/-- What formats rely on. The names of variants and fields stand in the value as they are, every
    field of a record is written, and a variant with data is an object of one member. -/
structure Library.Laws (lib : Library) : Prop where
  limit_eq : lib.limit = 127
  /-- The text of a value reads back as the value. -/
  parse?_print : ∀ j, j.isPlain = true → lib.parse? (lib.print j) = some j
  -- the shapes that are written
  string_eq : ∀ s, lib.string s = .string s
  bool_eq : ∀ b, lib.bool b = .bool b
  int_eq : ∀ n, lib.int n = .int n
  null_eq : lib.null = .null
  list_eq : ∀ items, lib.list items = .array items
  record_eq : ∀ members, lib.record members = .object members
  bare_eq : ∀ name, lib.bare name = .string name
  tagged_eq : ∀ name data, lib.tagged name data = .object [(name, data)]
  -- these shapes are read
  text?_string : ∀ s, lib.text? (.string s) = some s
  bool?_bool : ∀ b, lib.bool? (.bool b) = some b
  intWithin?_int : ∀ low high n, low ≤ n → n ≤ high → lib.intWithin? low high (.int n) = some n
  isNull_iff : ∀ j, lib.isNull j = true ↔ j = .null
  items?_array : ∀ d items, lib.items? (d + 1) (.array items) = some (items, Fin.last d)
  fields?_object : ∀ names values d, names.Nodup → values.length = names.length →
    lib.fields? names (d + 1) (.object (names.zip values)) = some (values.map some, Fin.last d)
  variant?_string : ∀ d name, lib.variant? d (.string name) = some (name, none)
  variant?_object : ∀ d name data,
    lib.variant? (d + 1) (.object [(name, data)]) = some (name, some (data, Fin.last d))
  -- readers count what they open
  variant?_closed : ∀ name data, lib.variant? 0 (.object [(name, data)]) = none
  items?_opens : ∀ {d j items inner}, lib.items? d j = some (items, inner) → inner.val + 1 = d
  fields?_opens : ∀ {names d j values inner},
    lib.fields? names d j = some (values, inner) → inner.val + 1 = d
  variant?_opens : ∀ {d j name data inner},
    lib.variant? d j = some (name, some (data, inner)) → inner.val + 1 = d

namespace Library

/-! No reader opens anything where nothing may be opened. -/

@[simp] theorem items?_zero (lib : Library) (j : Json) : lib.items? 0 j = none :=
  Option.eq_none_iff_forall_ne_some.mpr fun x _ => x.2.elim0

@[simp] theorem fields?_zero (lib : Library) (names : List String) (j : Json) :
    lib.fields? names 0 j = none :=
  Option.eq_none_iff_forall_ne_some.mpr fun x _ => x.2.elim0

end Library

namespace Library.Laws

variable {lib : Library} (h : lib.Laws)

include h

/-- The values that are written, for rewriting. -/
theorem writers : (∀ s, lib.string s = .string s) ∧ (∀ b, lib.bool b = .bool b) ∧
    (∀ n, lib.int n = .int n) ∧ lib.null = .null ∧ (∀ items, lib.list items = .array items) ∧
    (∀ members, lib.record members = .object members) ∧ (∀ name, lib.bare name = .string name) ∧
    ∀ name data, lib.tagged name data = .object [(name, data)] :=
  ⟨h.string_eq, h.bool_eq, h.int_eq, h.null_eq, h.list_eq, h.record_eq, h.bare_eq, h.tagged_eq⟩

theorem text?_written (s : String) : lib.text? (lib.string s) = some s := by
  rw [h.string_eq, h.text?_string]

theorem bool?_written (b : Bool) : lib.bool? (lib.bool b) = some b := by
  rw [h.bool_eq, h.bool?_bool]

theorem int32?_written (n : Int32) : lib.int32? (lib.int n.toInt) = some n := by
  have hlow := n.le_toInt
  have hhigh := n.toInt_lt
  rw [h.int_eq, int32?, h.intWithin?_int _ _ _ (by omega) (by omega), Option.map_some,
    Int32.ofInt_toInt]

theorem uint16?_written (n : UInt16) : lib.uint16? (lib.int n.toNat) = some n := by
  have hlt := n.toNat_lt
  rw [h.int_eq, uint16?, h.intWithin?_int _ _ _ (by omega) (by omega), Option.map_some,
    Int.toNat_natCast, UInt16.ofNat_toNat]

theorem uint32?_written (n : UInt32) : lib.uint32? (lib.int n.toNat) = some n := by
  have hlt := n.toNat_lt
  rw [h.int_eq, uint32?, h.intWithin?_int _ _ _ (by omega) (by omega), Option.map_some,
    Int.toNat_natCast, UInt32.ofNat_toNat]

theorem items?_written (d : Nat) (items : List Json) :
    lib.items? (d + 1) (lib.list items) = some (items, Fin.last d) := by
  rw [h.list_eq, h.items?_array]

theorem fields?_written (names : List String) (values : List Json) (hnames : names.Nodup)
    (hlength : values.length = names.length) (d : Nat) :
    lib.fields? names (d + 1) (lib.record (names.zip values)) =
      some (values.map some, Fin.last d) := by
  rw [h.record_eq, h.fields?_object names values d hnames hlength]

theorem variant?_bare (d : Nat) (name : String) :
    lib.variant? d (lib.bare name) = some (name, none) := by
  rw [h.bare_eq, h.variant?_string]

theorem variant?_tagged_zero (name : String) (data : Json) :
    lib.variant? 0 (lib.tagged name data) = none := by
  rw [h.tagged_eq, h.variant?_closed]

theorem variant?_tagged (d : Nat) (name : String) (data : Json) :
    lib.variant? (d + 1) (lib.tagged name data) = some (name, some (data, Fin.last d)) := by
  rw [h.tagged_eq, h.variant?_object]

end Library.Laws

/-! ## The library of the program -/

theorem fieldOf?_cons {name : String} {value : Json} {before after : List (String × Json)}
    (hbefore : ∀ m ∈ before, m.1 ≠ name) (hafter : ∀ m ∈ after, m.1 ≠ name) :
    fieldOf? (before ++ (name, value) :: after) name = some (some value) := by
  have hnone {others : List (String × Json)} (h : ∀ m ∈ others, m.1 ≠ name) :
      others.filter (·.1 == name) = [] :=
    List.filter_eq_nil_iff.mpr fun m hm => by simpa using h m hm
  unfold fieldOf?
  rw [List.filter_append, hnone hbefore, List.nil_append, List.filter_cons_of_pos (by simp),
    hnone hafter]

/-- Each field of a record is found, after the fields that were found before it. -/
theorem mapM_fieldOf?_zip {names : List String} {values : List Json} (hnames : names.Nodup)
    (hlength : values.length = names.length) {before : List (String × Json)}
    (hbefore : ∀ m ∈ before, m.1 ∉ names) :
    names.mapM (fieldOf? (before ++ names.zip values)) = some (values.map some) := by
  induction names generalizing values before with
  | nil =>
    cases List.length_eq_zero_iff.mp hlength
    rfl
  | cons name names ih =>
    cases values with
    | nil => cases hlength
    | cons value values =>
      obtain ⟨hname, hnames⟩ := List.nodup_cons.mp hnames
      have hfield : fieldOf? (before ++ (name, value) :: names.zip values) name =
          some (some value) := by
        refine fieldOf?_cons (fun m hm heq => ?_) fun m hm heq => ?_
        · exact hbefore m hm (heq ▸ List.mem_cons_self)
        · exact hname (heq ▸ (List.of_mem_zip hm).1)
      have hearlier : ∀ m ∈ before ++ [(name, value)], m.1 ∉ names := by
        intro m hm
        rcases List.mem_append.mp hm with hm | hm
        · exact fun hmem => hbefore m hm (List.mem_cons_of_mem _ hmem)
        · rw [List.mem_singleton.mp hm]
          exact hname
      have hrest := ih hnames (Nat.succ.inj hlength) hearlier
      rw [List.append_assoc, List.singleton_append] at hrest
      rw [List.zip_cons_cons, List.mapM_cons, hfield, hrest]
      rfl

theorem fields?_object (names : List String) (values : List Json) (d : Nat) (hnames : names.Nodup)
    (hlength : values.length = names.length) :
    fields? names (d + 1) (.object (names.zip values)) = some (values.map some, Fin.last d) := by
  have hnone : ∀ m ∈ ([] : List (String × Json)), m.1 ∉ names := fun m hm => by cases hm
  have hall := mapM_fieldOf?_zip hnames hlength hnone
  rw [List.nil_append] at hall
  rw [fields?, hall]
  rfl

theorem items?_opens {d : Nat} {j : Json} {items : List Json} {inner : Fin d}
    (h : items? d j = some (items, inner)) : inner.val + 1 = d := by
  unfold items? at h
  split at h
  · cases h
    rfl
  · cases h

theorem fields?_opens {names : List String} {d : Nat} {j : Json} {values : List (Option Json)}
    {inner : Fin d} (h : fields? names d j = some (values, inner)) : inner.val + 1 = d := by
  unfold fields? at h
  split at h
  · split at h
    · cases h
      rfl
    · cases h
  · obtain ⟨values, -, heq⟩ := Option.map_eq_some_iff.mp h
    cases heq
    rfl
  · cases h

theorem variant?_opens {d : Nat} {j data : Json} {name : String} {inner : Fin d}
    (h : variant? d j = some (name, some (data, inner))) : inner.val + 1 = d := by
  unfold variant? at h
  split at h
  · cases h
  · cases h
    rfl
  · cases h

theorem laws_library : library.Laws where
  limit_eq := rfl
  parse?_print _ hplain := parse?_compact hplain
  string_eq _ := rfl
  bool_eq _ := rfl
  int_eq _ := rfl
  null_eq := rfl
  list_eq _ := rfl
  record_eq _ := rfl
  bare_eq _ := rfl
  tagged_eq _ _ := rfl
  text?_string _ := rfl
  bool?_bool _ := rfl
  intWithin?_int _ _ _ hlow hhigh := if_pos ⟨hlow, hhigh⟩
  isNull_iff j := by cases j <;> simp [library, isNull]
  items?_array _ _ := rfl
  fields?_object := fields?_object
  variant?_string d _ := by cases d <;> rfl
  variant?_object _ _ _ := rfl
  variant?_closed _ _ := rfl
  items?_opens := items?_opens
  fields?_opens := fields?_opens
  variant?_opens := variant?_opens

end ZAssembler.Json
