import ZAssembler.Proofs.Clear
import ZAssembler.Proofs.DataPrograms
import ZAssembler.Proofs.Measuring
import ZAssembler.Proofs.TextCoding

/-
  The header of a story. The parts of the header do not overlap (`ranges_apart`), so each is read
  back as it was written, and the bytes between them are those of the image, which no pass has
  written. Its flags tell which nodes were read before the end of the program (`finish_flags`), its
  symbols have the values of the assembling pass, and its checksum is that of the bytes that follow.

  The length is counted in units of the version. A story of 65536 units, the most that its version
  allows, has more of them than a word can count.
-/

namespace ZAssembler.Story

/-! ## The checksum -/

theorem toNat_checksum (bytes : List UInt8) :
    (checksum bytes).toNat = ((bytes.drop headerSize).map UInt8.toNat).sum % 65536 := by
  have hsum : ∀ (rest : List UInt8) (sum : UInt16),
      (rest.foldl (fun sum b => sum + b.toUInt16) sum).toNat =
        (sum.toNat + (rest.map UInt8.toNat).sum) % 65536 := by
    intro rest
    induction rest with
    | nil => exact fun sum => (Nat.mod_eq_of_lt sum.toNat_lt).symm
    | cons b rest ih =>
      intro sum
      rw [List.foldl_cons, ih, UInt16.toNat_add, UInt8.toNat_toUInt16, List.map_cons, List.sum_cons]
      omega
  unfold checksum
  rw [hsum]
  simp

/-- Images of one size that read the same from `start` on hold the same bytes there. -/
theorem drop_eq_of_readByte {im im' : Image} (hsize : im.size = im'.size) {start : Nat}
    (hread : ∀ a, start ≤ a → im.readByte a = im'.readByte a) :
    im.bytes.toList.drop start = im'.bytes.toList.drop start := by
  have hsize : im.bytes.size = im'.bytes.size := hsize
  refine List.ext_getElem? fun i => ?_
  have heq := hread (start + i) (Nat.le_add_right _ _)
  rw [Image.readByte, Image.readByte, Array.getD_eq_getD_getElem?, Array.getD_eq_getD_getElem?]
    at heq
  rw [List.getElem?_drop, List.getElem?_drop, Array.getElem?_toList, Array.getElem?_toList]
  by_cases hi : start + i < im.bytes.size
  · rw [Array.getElem?_eq_getElem hi, Array.getElem?_eq_getElem (hsize ▸ hi)] at heq ⊢
    exact congrArg some heq
  · rw [Array.getElem?_eq_none (by omega), Array.getElem?_eq_none (by omega)]

/-- The checksum that the header holds is that of the story. -/
theorem checksum_finish (v : Version) (id : Identity) (s : Assembly.State) :
    checksum (headed v id s).bytes.toList = checksum (finish v id s).bytes.toList := by
  obtain ⟨hsize, hbyte⟩ := headed_keeps v id s
  obtain ⟨hsize', hbyte'⟩ := finish_keeps v id s
  have hdrop : (headed v id s).bytes.toList.drop headerSize =
      (finish v id s).bytes.toList.drop headerSize :=
    drop_eq_of_readByte (hsize.trans hsize'.symm) fun a ha => (hbyte a ha).trans (hbyte' a ha).symm
  unfold checksum
  rw [hdrop]

/-! ## What the header says -/

/-- The low 16 bits of a value, or 0 if there is none. -/
def lowBits (value : Option Int32) : Nat := value.elim 0 fun x => (x.toInt % 65536).toNat

theorem toNat_symbolWord (globals : SymbolTable) (name : String) :
    (symbolWord globals name).toNat = lowBits (globals.valueOf name) := by
  unfold symbolWord lowBits
  cases globals.valueOf name with
  | none => rfl
  | some value =>
    show (UInt16.ofNat (value.toInt % 65536).toNat).toNat = (value.toInt % 65536).toNat
    rw [UInt16.toNat_ofNat', Nat.mod_eq_of_lt (by omega)]

/-- A text of the right length and of characters that are kept is stored as it is. -/
theorem fitted_filter {count : Nat} {filler : Char} {keep : Char → Bool} {chars : List Char}
    (hlength : chars.length = count) (hkeep : ∀ c ∈ chars, keep c = true) :
    fitted count filler (chars.filter keep) = chars.map fun c => UInt8.ofNat c.toNat := by
  unfold fitted
  rw [List.filter_eq_self.mpr hkeep, List.take_append_of_le_length (Nat.le_of_eq hlength.symm),
    List.take_of_length_le (Nat.le_of_eq hlength)]

/-- The header of a story for version `v`. The nodes in `reached` were read, and left the
    globals. -/
structure Header (v : Version) (id : Identity) (globals : SymbolTable) (reached : List Node)
    (bytes : List UInt8) : Prop where
  version : bytes[0]? = some (UInt8.ofNat v.number)
  status : bytes[1]? =
    some (if v.number ≤ 3 ∧ ∃ n ∈ reached, n.kind = .directive .time then 2 else 0)
  sound : wordAt bytes 0x10 = if ∃ n ∈ reached, n.kind = .directive .sound then 0x80 else 0
  release : wordAt bytes 0x02 =
    (id.release.map UInt16.toNat).getD (lowBits (globals.valueOf "ZORKID"))
  symbols : ∀ word ∈ [(0x04, "ENDLOD"), (0x06, "START"), (0x08, "VOCAB"), (0x0A, "OBJECT"),
    (0x0C, "GLOBAL"), (0x0E, "IMPURE"), (0x18, "WORDS")],
    wordAt bytes word.1 = lowBits (globals.valueOf word.2)
  extended : 5 ≤ v.number → ∀ word ∈ [(0x2E, "TCHARS"), (0x36, "EXTAB")],
    wordAt bytes word.1 = lowBits (globals.valueOf word.2)
  serial : (bytes.drop 0x12).take 6 = serialBytes id.serial
  serial_text : id.serial.toList.length = 6 →
    (∀ c ∈ id.serial.toList, 0x21 ≤ c.toNat ∧ c.toNat ≤ 0x7E) →
    (bytes.drop 0x12).take 6 = id.serial.toList.map fun c => UInt8.ofNat c.toNat
  creator : ∀ creator, id.creator = some creator → (bytes.drop 0x3C).take 4 = creatorBytes creator
  creator_text : ∀ creator, id.creator = some creator → creator.toList.length = 4 →
    (∀ c ∈ creator.toList, c.toNat < 0x80) →
      (bytes.drop 0x3C).take 4 = creator.toList.map fun c => UInt8.ofNat c.toNat
  /-- All other bytes are zero, the length and the bases of packed addresses apart. -/
  rest : ∀ a, 0x1E ≤ a → a < headerSize → ¬ (0x28 ≤ a ∧ a < 0x2C) →
    ¬ (5 ≤ v.number ∧ (a = 0x2E ∨ a = 0x2F ∨ a = 0x36 ∨ a = 0x37)) →
    ¬ (id.creator.isSome = true ∧ 0x3C ≤ a) → bytes[a]? = some 0

end ZAssembler.Story

namespace ZAssembler.Assembly

/-! ## The flags -/

section Flags

variable {cx : Context} (hm : cx.mode = .assembling)

include hm

/-- Only two directives set a flag. -/
theorem kept_visit {n : Node} (htime : n.kind ≠ .directive .time)
    (hsound : n.kind ≠ .directive .sound) (index : Nat) (s : State) :
    Leaves (Kept cx) (visit cx index n) s := by
  have hnode : Leaves (Kept cx) (node cx n) (s.reach index n) := by
    cases hdebug : n.debug? with
    | none =>
      have hstep : InStep .level NoName Kept cx cx (node cx n) (node cx n) :=
        inStep_node (defining_level ⟨rfl, hm⟩) (fun _ _ => .inl rfl) (.inl rfl) hdebug htime hsound
      exact hstep.kept _
    | some d =>
      rw [node_of_debug hdebug]
      exact kept_debugDirective d _
  refine Leaves.bind (leaves_modify (Keeping.of_rest rfl)) fun _ t ht => ?_
  cases ht
  exact leaves_runStep (R := Kept cx) cx (fun _ _ _ => Keeping.of_rest rfl) hnode

theorem visit_flags {index : Nat} {n : Node} {s t : State} (h : visit cx index n s = .ok () t) :
    (t.timed = true ↔ s.timed = true ∨ cx.version.number ≤ 3 ∧ n.kind = .directive .time) ∧
      (t.sound = true ↔ s.sound = true ∨ n.kind = .directive .sound) := by
  have hrun : runStep cx (node cx n) (s.reach index n) = .ok () t := h
  by_cases htime : n.kind = .directive .time
  · have hnode : node cx n = modify fun s => { s with timed := s.timed || cx.version.number ≤ 3 } :=
      node_directive htime
    rw [hnode] at hrun
    cases hrun
    simp [State.reach, htime]
  · by_cases hsound : n.kind = .directive .sound
    · have hnode : node cx n = modify fun s => { s with sound := true } := node_directive hsound
      rw [hnode] at hrun
      cases hrun
      simp [State.reach, hsound]
    · have hkept := (kept_visit hm htime hsound index s).of_ok h
      rw [hkept.timed, hkept.sound]
      simp [htime, hsound]

/-- A flag is set at the end if it was at the beginning or a node that was read has set it. -/
theorem Moves.flag (flag : State → Bool) {raises : Node → Prop}
    (hvisit : ∀ {index n s t}, Assembly.visit cx index n s = .ok () t →
      (flag t = true ↔ flag s = true ∨ raises n))
    (henter : ∀ s start r, flag (s.enter start r) = flag s)
    (hagain : ∀ s next, flag (s.walkAgain next) = flag s)
    (hleave : ∀ s scope log counts, flag { s with scope := scope, locals := .empty, log, counts } =
      flag s)
    {s t : State} {l : List Moment} (h : Moves cx s l t) :
    flag t = true ↔ flag s = true ∨ ∃ v, .visit v ∈ l ∧ raises v.node := by
  induction h with
  | refl s => simp
  | visit index n h _ ih =>
    rw [ih, hvisit h, or_assoc]
    simp
  | enter start r _ _ ih => rw [ih, henter]
  | again _ _ _ ih => rw [ih, hagain]
  | leave _ _ h _ ih =>
    obtain ⟨log, counts, rfl⟩ := (closeRoutine_ok hm h).eq
    rw [ih, hleave]
    simp

theorem kept_endPass (s : State) : Leaves (Kept cx) (endPass cx) s := by
  rw [endPass_parts]
  have htable : InStep .level NoName Kept cx cx (dropTable cx) (dropTable cx) := inStep_dropTable
  have hvocabulary : InStep .level NoName Kept cx cx (dropVocabulary cx) (dropVocabulary cx) :=
    inStep_dropVocabulary
  refine (htable.kept s).bind fun _ t _ => (hvocabulary.kept t).bind fun _ u _ => ?_
  unfold lookBack
  rw [hm]
  refine leaves_get ?_
  dsimp only
  split
  · exact (inStep_stopWith _ : InStep .level NoName Kept cx cx (stopWith _) (stopWith _)).kept u
  · exact leaves_pure _ u

/-- The flags are those that the routines have left. -/
theorem pass_flags {nodes : List Node} {s u : State} (h : pass cx (.ofNodes nodes) s = .ok () u) :
    ∃ t1 t2 index, visitAll cx 0 (Program.ofNodes nodes).preamble s = .ok () t1 ∧
      routines cx (Program.ofNodes nodes).preamble.length (Program.ofNodes nodes).routines t1 =
        .ok index t2 ∧
      u.timed = t2.timed ∧ u.sound = t2.sound := by
  unfold pass at h
  obtain ⟨⟨⟩, t1, hpreamble, h⟩ := bind_ok h
  obtain ⟨index, t2, hroutines, h⟩ := bind_ok h
  refine ⟨t1, t2, index, hpreamble, hroutines, ?_⟩
  cases hclosing : (Program.ofNodes nodes).closing with
  | none =>
    rw [hclosing] at h
    have hkept := (kept_endPass hm t2).of_ok h
    exact ⟨hkept.timed, hkept.sound⟩
  | some n =>
    rw [hclosing] at h
    obtain ⟨⟨⟩, t3, hvisit, h⟩ := bind_ok h
    obtain rfl := visit_stop (closing_stops hclosing) hvisit
    have hkept := (kept_endPass hm _).of_ok h
    exact ⟨hkept.timed, hkept.sound⟩

end Flags

section Finish

variable {p : FinalPass} {o : Options} {nodes : List Node} {story : AssembledStory}
  (h : p.Makes o nodes story)

include h

/-- The nodes that were read are those before the end of the program. -/
theorem exists_visit_iff (P : Node → Prop) :
    (∃ v, .visit v ∈ p.moments ∧ P v.node) ↔ ∃ n ∈ Program.beforeEnd nodes, P n := by
  obtain ⟨t, hcourse⟩ := h.course
  obtain ⟨-, -, -, hnodes⟩ := h.thread
  rw [← hnodes]
  constructor
  · rintro ⟨x, hx, hP⟩
    obtain ⟨w, hw, hset, v, hv, -, hnode⟩ := hcourse.reaches x (FinalPass.mem_visits hx)
    have hmem : v ∈ p.settledVisits := mem_settledVisits.mpr ⟨w, hw, hset, hv⟩
    exact ⟨v.node, List.mem_map_of_mem hmem, hnode ▸ hP⟩
  · rintro ⟨n, hn, hP⟩
    obtain ⟨v, hv, rfl⟩ := List.mem_map.mp hn
    obtain ⟨w, hw, -, hvisit⟩ := mem_settledVisits.mp hv
    exact ⟨v, List.mem_flatMap.mpr ⟨w, hw, visit_mem_moments.mpr hvisit⟩, hP⟩

theorem finish_flags :
    (p.finish.timed = true ↔ p.context.version.number ≤ 3 ∧
        ∃ n ∈ Program.beforeEnd nodes, n.kind = .directive .time) ∧
      (p.finish.sound = true ↔ ∃ n ∈ Program.beforeEnd nodes, n.kind = .directive .sound) := by
  obtain ⟨s, hs⟩ := h.begins
  have hscope : p.start.scope = none := by rw [hs]; rfl
  have htimed : p.start.timed = false := by rw [hs]; rfl
  have hsound : p.start.sound = false := by rw [hs]; rfl
  have hends := h.ends
  rw [h.program] at hends
  obtain ⟨t1, t2, index, hpreamble, hroutines, htimed', hsound'⟩ := pass_flags h.mode hends
  rw [← h.program] at hpreamble hroutines
  have hmoves : Moves p.context p.start p.moments t2 :=
    (pass_moves h.mode hscope hpreamble hroutines).1
  have htime := hmoves.flag h.mode State.timed (fun hv => (visit_flags h.mode hv).1)
    (fun _ _ _ => rfl) (fun _ _ => rfl) (fun _ _ _ _ => rfl)
  have hsounds := hmoves.flag h.mode State.sound (fun hv => (visit_flags h.mode hv).2)
    (fun _ _ _ => rfl) (fun _ _ => rfl) (fun _ _ _ _ => rfl)
  rw [exists_visit_iff h fun n => p.context.version.number ≤ 3 ∧ n.kind = .directive .time, htimed]
    at htime
  rw [exists_visit_iff h fun n => n.kind = .directive .sound, hsound] at hsounds
  rw [htimed', hsound', htime, hsounds]
  refine ⟨⟨?_, ?_⟩, by simp⟩
  · rintro (hfalse | ⟨n, hn, hversion, hkind⟩)
    · cases hfalse
    · exact ⟨hversion, n, hn, hkind⟩
  · rintro ⟨hversion, n, hn, hkind⟩
    exact .inr ⟨n, hn, hversion, hkind⟩

/-- The pass leaves the header empty. -/
theorem finish_header (hfit : p.Fits) {a : Nat} (ha : a < Story.headerSize) :
    p.finish.image.readByte a = 0 := by
  obtain ⟨t, hcourse⟩ := h.course
  obtain ⟨s, hs⟩ := h.begins
  have hstart : Clear p.start := hs ▸ clear_beginPass s o p.context.version .assembling
  have hzero : ∀ a, p.start.image.readByte a = 0 := fun a => by
    rw [hs]
    exact readByte_fill a
  have hkept : Above Story.headerSize t ∧ Clear t ∧ SameHeader p.start t := by
    refine hcourse.moves.keeps (P := fun s => Above Story.headerSize s ∧ Clear s ∧
      SameHeader p.start s)
      h.mode (fun hv hvisit hs => ?_) (fun start r _ hs => ?_) (fun hscope hnext hs => ?_)
      (fun _ hleft hs => ?_) ⟨start_above h, hstart, fun _ _ => rfl⟩
    · have hsize := hfit.size_lt (FinalPass.mem_visits hv)
      obtain ⟨habove, hclear, hsame⟩ := hs
      have hvisited := hclear.visit p.context _ _ (by rwa [final_of_ok hvisit])
      rw [final_of_ok hvisit] at hvisited
      exact ⟨(visit_later h.mode hvisit).above hsize habove, hvisited.1,
        fun a ha => (hvisited.2 a ha).trans (hsame a ha)⟩
    · exact ⟨hs.1.enter start r, hs.2.1.of_eq rfl rfl rfl, hs.2.2⟩
    · obtain ⟨habove, hclear, hsame⟩ := hs
      obtain ⟨hlow, hhigh⟩ := habove.mark _ hscope
      rw [← (nextWalk_continues hnext).1] at hlow hhigh
      obtain ⟨hclear', hsame'⟩ := hclear.walkAgain hlow (Nat.le_trans hhigh habove.within)
      exact ⟨habove.walkAgain hscope hnext, hclear', fun a ha => (hsame' a ha).trans (hsame a ha)⟩
    · obtain ⟨habove, hclear, hsame⟩ := hs
      refine ⟨habove.left hleft, hclear.of_eq hleft.image hleft.fixups hleft.vocabulary,
        fun a ha => ?_⟩
      rw [hleft.image]
      exact hsame a ha
  rw [hcourse.ended.image, hkept.2.2 a ha, hzero]

end Finish

/-! ## The header of a story -/

section Parts

variable {v : Version} {id : Story.Identity} {s : State}

theorem byte_finish (addr : Nat) (b : UInt8)
    (hmem : (addr, [b]) ∈ Story.headerPatches v id s (Story.lengthFor v s.image.length)) :
    (Story.finish v id s).bytes.toList[addr]? = some b := by
  have hpart : (addr, [b]) ∈ Story.allPatches v id s := List.mem_append_left _ hmem
  have haddr : addr + 1 ≤ Story.headerSize := Story.allPatches_within v id s _ hpart
  rw [Story.getElem?_finish v id s haddr, Story.readByte_part v id s hpart ⟨Nat.le_refl _, by simp⟩,
    Nat.sub_self]
  rfl

theorem word_finish (addr : Nat) (w : UInt16)
    (hmem : (addr, wordBytes w) ∈ Story.headerPatches v id s (Story.lengthFor v s.image.length)) :
    Story.wordAt (Story.finish v id s).bytes.toList addr = w.toNat :=
  Story.wordAt_part v id s (List.mem_append_left _ hmem)

theorem symbol_finish {addr : Nat} {name : String} (hmem : (addr, name) ∈ Story.symbolWords v) :
    Story.wordAt (Story.finish v id s).bytes.toList addr =
    Story.lowBits (s.globals.valueOf name) := by
  rw [← Story.toNat_symbolWord]
  refine word_finish addr _ ?_
  simp only [Story.headerPatches, List.mem_append, List.mem_map]
  exact .inl (.inl (.inr ⟨(addr, name), hmem, rfl⟩))

theorem text_finish (addr : Nat) (bytes : List UInt8)
    (hmem : (addr, bytes) ∈ Story.headerPatches v id s (Story.lengthFor v s.image.length)) :
    ((Story.finish v id s).bytes.toList.drop addr).take bytes.length = bytes :=
  Story.part_bytes v id s (List.mem_append_left _ hmem)

theorem rest_finish (hfit : s.image.size < 2 ^ 32)
    (hzero : ∀ a, a < Story.headerSize → s.image.readByte a = 0) {a : Nat} (hlow : 0x1E ≤ a)
    (hhigh : a < Story.headerSize) (hbases : ¬ (0x28 ≤ a ∧ a < 0x2C))
    (hextended : ¬ (5 ≤ v.number ∧ (a = 0x2E ∨ a = 0x2F ∨ a = 0x36 ∨ a = 0x37)))
    (hcreator : ¬ (id.creator.isSome = true ∧ 0x3C ≤ a)) :
    (Story.finish v id s).bytes.toList[a]? = some 0 := by
  rw [Story.getElem?_finish v id s hhigh, Story.readByte_between v id s hfit, hzero a hhigh]
  rintro range hrange ⟨hfrom, hto⟩
  obtain hend | ⟨hstart, hend⟩ | ⟨hv, rfl | rfl⟩ | ⟨hsigned, rfl⟩ :=
    Story.ranges_cases v _ range hrange
  · omega
  · exact hbases ⟨by omega, by omega⟩
  · exact hextended ⟨hv, by omega⟩
  · exact hextended ⟨hv, by omega⟩
  · exact hcreator ⟨hsigned, hfrom⟩

theorem serial_finish :
    ((Story.finish v id s).bytes.toList.drop 0x12).take 6 = Story.serialBytes id.serial := by
  have hlength : (Story.serialBytes id.serial).length = 6 := Story.length_fitted _ _ _
  rw [← hlength]
  exact text_finish 0x12 _ (by simp [Story.headerPatches])

theorem creator_finish {creator : String} (hcreator : id.creator = some creator) :
    ((Story.finish v id s).bytes.toList.drop 0x3C).take 4 = Story.creatorBytes creator := by
  have hlength : (Story.creatorBytes creator).length = 4 := Story.length_fitted _ _ _
  rw [← hlength]
  exact text_finish 0x3C _ (by simp [Story.headerPatches, hcreator])

/-- The header of what a pass left that read the nodes in `reached`. -/
theorem header_finish {reached : List Node}
    (htimed : s.timed = true ↔ v.number ≤ 3 ∧ ∃ n ∈ reached, n.kind = .directive .time)
    (hsound : s.sound = true ↔ ∃ n ∈ reached, n.kind = .directive .sound)
    (hfit : s.image.size < 2 ^ 32) (hzero : ∀ a, a < Story.headerSize → s.image.readByte a = 0) :
    Story.Header v id s.globals reached (Story.finish v id s).bytes.toList where
  version := byte_finish 0x00 _ (by simp [Story.headerPatches])
  status := by
    rw [← if_congr htimed rfl rfl]
    exact byte_finish 0x01 _ (by simp [Story.headerPatches])
  sound := by
    rw [← if_congr hsound rfl rfl, word_finish 0x10 (if s.sound then 0x80 else 0)
      (by simp [Story.headerPatches])]
    split <;> rfl
  release := by
    rw [word_finish 0x02 (id.release.getD (Story.symbolWord s.globals "ZORKID"))
      (by simp [Story.headerPatches]), ← Story.toNat_symbolWord]
    cases id.release <;> rfl
  symbols word hword := symbol_finish (List.mem_append_left _ hword)
  extended hv word hword := by
    refine symbol_finish (List.mem_append_right _ ?_)
    rw [if_pos (by simpa [Version.hasExtendedHeader] using hv)]
    exact hword
  serial := serial_finish
  serial_text hlength hprintable := by
    rw [serial_finish]
    exact Story.fitted_filter hlength fun c hc => by simpa using hprintable c hc
  creator _ hcreator := creator_finish hcreator
  creator_text _ hcreator hlength hascii := by
    rw [creator_finish hcreator]
    exact Story.fitted_filter hlength fun c hc => by simpa using hascii c hc
  rest a := rest_finish hfit hzero

end Parts

theorem length_story {o : Options} {v : Version} {story : AssembledStory} {s t : State}
    (h : finishStory o v s = .ok story t) : story.bytes.length = (Story.padded v s.image).size := by
  obtain ⟨-, -, hbytes, -⟩ := finishStory_ok h
  rw [hbytes, Array.length_toList]
  exact (Story.finish_keeps v o.identity s).1

/-- The length of a story is one of its version, as long as it does not wrap. -/
theorem length_story_of_fits {o : Options} {v : Version} {story : AssembledStory} {s t : State}
    (h : finishStory o v s = .ok story t) (hfit : s.image.size + v.lengthUnit ≤ 2 ^ 32) :
    512 ≤ story.bytes.length ∧ v.lengthUnit ∣ story.bytes.length ∧
      story.bytes.length ≤ v.maxStorySize := by
  obtain ⟨-, hlength, -⟩ := finishStory_ok h
  have hpos := Story.lengthUnit_pos v
  rw [Image.length_of_lt (by omega)] at hlength
  rw [length_story h, Story.size_padded v hfit]
  exact ⟨(Story.lengthFor_ge v hfit).2, Story.lengthUnit_dvd v _, hlength⟩

/-- The header of a story says what the program and the options ask for, its checksum is that of the
    bytes that follow, and its length is that of a story of the version, as long as no address wraps
    nor the length. No pass writes a byte of the header before the story is finished. -/
theorem header_contract {o : Options} {nodes : List Node} {story : AssembledStory}
    (h : (assemble o nodes).result = .ok story) :
    ∃ p, finalPass? o nodes = some p ∧
      (p.Fits →
        (512 ≤ story.bytes.length ∧ p.context.version.lengthUnit ∣ story.bytes.length ∧
          story.bytes.length ≤ p.context.version.maxStorySize) ∧
        Story.wordAt story.bytes 0x1C = ((story.bytes.drop 64).map UInt8.toNat).sum % 65536 ∧
        Story.Header p.context.version o.identity p.finish.globals (Program.beforeEnd nodes)
          story.bytes) ∧
      ∀ v mode (s : State),
        Small (passArrivals (s.nextContext o v mode) (.ofNodes nodes) (s.beginPass o v mode)) →
        ∀ x ∈ passArrivals (s.nextContext o v mode) (.ofNodes nodes) (s.beginPass o v mode),
          x.LeavesHeader := by
  obtain ⟨p, hp, hmakes⟩ := exists_finalPass h
  obtain ⟨t, hfinish⟩ := hmakes.finishes
  obtain ⟨-, -, hbytes, -⟩ := finishStory_ok hfinish
  obtain ⟨htimed, hsound⟩ := finish_flags hmakes
  refine ⟨p, hp, fun hfit => ?_, fun v mode s => arrivals_leave_header o _ v mode s⟩
  have hroom := finish_fits hmakes hfit
  have hpos := Story.lengthUnit_pos p.context.version
  refine ⟨length_story_of_fits hfinish hroom, ?_, ?_⟩
  · have hsum : (0x1C, wordBytes (Story.checksum (Story.headed p.context.version o.identity
        p.finish).bytes.toList)) ∈ Story.allPatches p.context.version o.identity p.finish :=
      List.mem_append_right _ List.mem_cons_self
    rw [hbytes, Story.wordAt_part _ _ _ hsum, Story.checksum_finish, Story.toNat_checksum]
    rfl
  · rw [hbytes]
    exact header_finish htimed hsound (by omega) fun a ha => finish_header hmakes hfit ha

/-- The status line shows the time; the sound comes after the end of the program. -/
def stamped : List Node :=
  [⟨.directive (.equal "ZORKID" (.number 7)), {}⟩, ⟨.directive .time, {}⟩,
    ⟨.globalLabel "START", {}⟩,
    ⟨.directive (.word [.number 5]), {}⟩, ⟨.directive .stop, {}⟩, ⟨.directive .sound, {}⟩]

def stampedOptions : Options :=
  { version := .v3, identity := { serial := "840726", creator := some "ZASM" } }

theorem stamped_header :
    ∃ story p, (assemble stampedOptions stamped).result = .ok story ∧
      finalPass? stampedOptions stamped = some p ∧ p.Fits ∧ p.context.version = .v3 ∧
      story.bytes[0]? = some 3 ∧ story.bytes[1]? = some 2 ∧ Story.wordAt story.bytes 0x10 = 0 ∧
      Story.wordAt story.bytes 0x02 = 7 ∧ Story.wordAt story.bytes 0x06 = 0x40 ∧
      (story.bytes.drop 0x3C).take 4 = [0x5A, 0x41, 0x53, 0x4D] ∧ story.bytes[0x2E]? = some 0 ∧
      ∃ x ∈ passArrivals ((State.initial .v3).nextContext stampedOptions .v3 .measuring)
        (.ofNodes stamped) ((State.initial .v3).beginPass stampedOptions .v3 .measuring),
        x.node.kind = .directive (.word [.number 5]) ∧ x.LeavesHeader := by
  obtain ⟨story, p, hresult, hp, hrun⟩ := exists_run stampedOptions stamped
    (fun p => decide p.Fits && decide (p.context.version = .v3 ∧
      p.finish.globals.valueOf "ZORKID" = some 7 ∧ p.finish.globals.valueOf "START" = some 0x40))
    (by decide +kernel)
  have harrivals : (decide (Small (passArrivals
      ((State.initial .v3).nextContext stampedOptions .v3 .measuring) (.ofNodes stamped)
      ((State.initial .v3).beginPass stampedOptions .v3 .measuring))) &&
      (passArrivals ((State.initial .v3).nextContext stampedOptions .v3 .measuring)
        (.ofNodes stamped)
        ((State.initial .v3).beginPass stampedOptions .v3 .measuring)).any fun x =>
          decide (x.node.kind = .directive (.word [.number 5]))) = true := by decide +kernel
  simp only [Bool.and_eq_true, List.any_eq_true, decide_eq_true_eq] at hrun harrivals
  obtain ⟨hfit, hversion, hrelease, hstart⟩ := hrun
  obtain ⟨hsmall, x, hx, hword⟩ := harrivals
  obtain ⟨p', hp', hcontract, hleaves⟩ := header_contract hresult
  cases hp.symm.trans hp'
  obtain ⟨-, -, hheader⟩ := hcontract hfit
  rw [hversion] at hheader
  refine ⟨story, p, hresult, hp, hfit, hversion, hheader.version, ?_, ?_, ?_, ?_, ?_, ?_,
    x, hx, hword, hleaves .v3 .measuring _ hsmall x hx⟩
  · rw [hheader.status]
    decide +kernel
  · rw [hheader.sound]
    decide +kernel
  · rw [hheader.release, hrelease]
    decide +kernel
  · rw [hheader.symbols (0x06, "START") (by simp), hstart]
    decide +kernel
  · rw [hheader.creator "ZASM" rfl]
    decide +kernel
  · exact hheader.rest 0x2E (by decide) (by decide) (by decide) (by decide) (by decide)

/-! ## The word of the length -/

/-- No version has stories of more than 65536 units. -/
theorem maxStorySize_le_units (v : Version) : v.maxStorySize ≤ 65536 * v.lengthUnit := by
  cases v <;> decide

theorem lengthWord_finish (v : Version) (id : Story.Identity) (s : State) :
    Story.wordAt (Story.finish v id s).bytes.toList 0x1A =
      Story.lengthFor v s.image.length / v.lengthUnit % 65536 := by
  rw [word_finish 0x1A (UInt16.ofNat (Story.lengthFor v s.image.length / v.lengthUnit))
    (by simp [Story.headerPatches]), UInt16.toNat_ofNat']

/-- The word that counts the length in units is right, unless the story has as many units as no word
    can count: then it is 0. Only a story of the greatest length has so many, and in version 7 none.
    A longer story is made only where the length of the image wraps, in the last unit before 2^32
    bytes. -/
theorem length_word_counts {o : Options} {nodes : List Node} {story : AssembledStory}
    (h : (assemble o nodes).result = .ok story) :
    ∃ p, finalPass? o nodes = some p ∧
      (Story.wordAt story.bytes 0x1A * p.context.version.lengthUnit = story.bytes.length ↔
        story.bytes.length ≠ 65536 * p.context.version.lengthUnit ∧
          story.bytes.length ≤ p.context.version.maxStorySize) ∧
      (story.bytes.length = 65536 * p.context.version.lengthUnit →
        Story.wordAt story.bytes 0x1A = 0 ∧
        story.bytes.length = p.context.version.maxStorySize ∧ p.context.version ≠ .v7) ∧
      (p.context.version.maxStorySize < story.bytes.length →
        2 ^ 32 < story.bytes.length + p.context.version.lengthUnit) ∧
      (p.Fits → story.bytes.length ≤ p.context.version.maxStorySize) := by
  obtain ⟨p, hp, hmakes⟩ := exists_finalPass h
  obtain ⟨t, hfinish⟩ := hmakes.finishes
  obtain ⟨-, hlength, hbytes, -⟩ := finishStory_ok hfinish
  refine ⟨p, hp, ?_⟩
  have hlast : p.Fits → story.bytes.length ≤ p.context.version.maxStorySize :=
    fun hfit => (length_story_of_fits hfinish (finish_fits hmakes hfit)).2.2
  have hsize := length_story hfinish
  have hpos := Story.lengthUnit_pos p.context.version
  obtain ⟨count, hcount⟩ := Story.lengthUnit_dvd p.context.version p.finish.image.length
  rw [Nat.mul_comm] at hcount
  have hword : Story.wordAt story.bytes 0x1A = count % 65536 := by
    rw [hbytes, lengthWord_finish, hcount, Nat.mul_div_cancel count hpos]
  obtain hright | hlong := Story.size_padded_cases p.context.version p.finish.image
  · have hmax := maxStorySize_le_units p.context.version
    rw [hright, hcount] at hsize
    rw [hcount] at hlength
    have hle : count ≤ 65536 := Nat.le_of_mul_le_mul_right (Nat.le_trans hlength hmax) hpos
    rw [hword, hsize]
    refine ⟨?_, fun hfull => ?_, fun hmore => absurd hlength (Nat.not_le.mpr hmore),
      fun _ => hlength⟩
    · simp only [ne_eq, Nat.mul_left_inj (Nat.ne_of_gt hpos), and_iff_left hlength]
      omega
    · rw [Nat.mul_left_inj (Nat.ne_of_gt hpos)] at hfull
      subst hfull
      refine ⟨rfl, Nat.le_antisymm hlength hmax, fun hseven => ?_⟩
      rw [hseven] at hlength
      exact absurd hlength (by decide)
  · rw [← hsize] at hlong
    have hmax := maxStorySize_le p.context.version
    have hunit := Story.lengthUnit_le p.context.version
    have hless : count % 65536 * p.context.version.lengthUnit ≤ 65535 * 8 :=
      Nat.mul_le_mul (by omega) hunit
    rw [hword]
    refine ⟨by omega, by omega, fun _ => hlong, hlast⟩

theorem stamped_length :
    ∃ story p, (assemble stampedOptions stamped).result = .ok story ∧
      finalPass? stampedOptions stamped = some p ∧ p.context.version.lengthUnit = 2 ∧
      story.bytes.length = 512 ∧ Story.wordAt story.bytes 0x1A * 2 = story.bytes.length := by
  obtain ⟨story, p, hresult, hp, hrun⟩ := exists_run stampedOptions stamped
    (fun p => decide (p.context.version = .v3 ∧ p.finish.image.size = 66)) (by decide +kernel)
  obtain ⟨hversion, himage⟩ := decide_eq_true_eq.mp hrun
  obtain ⟨p', hp', hmakes⟩ := exists_finalPass hresult
  cases hp.symm.trans hp'
  obtain ⟨t, hfinish⟩ := hmakes.finishes
  have hlength : story.bytes.length = 512 := by
    rw [length_story hfinish, hversion, Story.size_padded .v3 (by rw [himage]; decide), himage]
    decide
  obtain ⟨p'', hp'', hcounts, -⟩ := length_word_counts hresult
  cases hp.symm.trans hp''
  have hunit : p.context.version.lengthUnit = 2 := by rw [hversion]; rfl
  rw [hunit, hversion] at hcounts
  refine ⟨story, p, hresult, hp, hunit, hlength, hcounts.mpr ?_⟩
  rw [hlength]
  decide

/-- A string of signs that no alphabet has. -/
def signs (count : Nat) : List Node :=
  [⟨.directive (.str (String.ofList (List.replicate count '@'))), {}⟩]

theorem signs_program (count : Nat) : Data.Program (signs count) where
  data := by simp [signs, Node.isData]
  distinct := List.nodup_nil
  notStack := List.not_mem_nil
  plain := by simp [signs, Node.dataExprs]
  names := by simp [signs, Node.dataExprs]

/-- Each sign takes four Z-characters. -/
theorem size_signs (count : Nat) :
    Data.size .v3 (signs count) = 2 * ((max (count * 4) 1 + 2) / 3) := by
  have hsign : (ZText.charZchars .v3 '@').length = 4 := by decide
  simp only [Data.size, signs, Node.dataSize, List.map_cons, List.map_nil, List.sum_cons,
    List.sum_nil,
    Nat.add_zero, ZText.length_encodePlain, String.toList_ofList, List.map_replicate, hsign,
    List.sum_replicate_nat]

def signsOptions : Options := { version := .v3, identity := { serial := "840726" } }

/-- A string that fills a story to the greatest length of its version: the word of the length is
    0. -/
theorem signs_wrap :
    ∃ story, (assemble signsOptions (signs 49128)).result = .ok story ∧
      story.bytes.length = Version.v3.maxStorySize ∧ Story.wordAt story.bytes 0x1A = 0 ∧
      Story.wordAt story.bytes 0x1A * Version.v3.lengthUnit ≠ story.bytes.length := by
  have hversion : signsOptions.version = .v3 := rfl
  have hdata : Data.size .v3 (signs 49128) = 131008 := size_signs 49128
  have hfit : Story.headerSize + Data.size signsOptions.version (signs 49128) ≤
      signsOptions.version.maxStorySize := by
    rw [hversion, hdata]
    decide
  obtain ⟨story, p, hresult, -, -, hbytes, himage, -⟩ :=
    assemble_data (signs_program 49128) signsOptions hfit
  rw [hversion] at hbytes himage
  have hlong : (Data.bytes .v3 (signs 49128)).length = 131008 := (Data.length_bytes _ _).trans hdata
  have hsize : p.finish.image.size = 131072 := by
    rw [himage, size_store_fill (by rw [hlong]; decide), hlong]
    rfl
  have hlength : story.bytes.length = 131072 := by
    rw [hbytes, Array.length_toList]
    exact (Story.size_finish _ _ (by rw [hsize]; decide)).trans (by rw [hsize]; decide)
  have hword : Story.wordAt story.bytes 0x1A = 0 := by
    rw [hbytes, lengthWord_finish, Image.length_of_lt (by rw [hsize]; decide), hsize]
    decide
  refine ⟨story, hresult, hlength, hword, ?_⟩
  rw [hword, hlength]
  decide

end ZAssembler.Assembly
