import Mathlib.Algebra.Group.Int.Defs
import ZAssembler.Json.Parse
import ZAssembler.Json.Print

/-
  The text of a JSON value reads back as the value (`parse?_compact`). The text is read in two
  steps, and between them stand the tokens of the value: `tokensFrom_chars` says that its characters
  give these tokens, `run_tokens` that the tokens give the value.

  Numbers, `true`, `false` and `null` end only where the next token begins, so what follows a value
  matters: after a value comes a comma, a bracket or a brace on its right, or nothing.
-/

namespace ZAssembler.Json

/-! ## The tokens of a value -/

mutual

/-- Every number is an integer of 64 bits, and there is a text to read in every string. -/
def isPlain : Json → Bool
  | .real _ | .unreadable => false
  | .int n => decide (-2 ^ 63 ≤ n ∧ n < 2 ^ 63)
  | .array items => arePlain items
  | .object members => membersPlain members
  | _ => true

def arePlain : List Json → Bool
  | [] => true
  | item :: rest => isPlain item && arePlain rest

def membersPlain : List (String × Json) → Bool
  | [] => true
  | (_, value) :: rest => isPlain value && membersPlain rest

end

mutual

def tokens : Json → List Token
  | .array items => .leftBracket :: itemTokens items ++ [.rightBracket]
  | .object members => .leftBrace :: memberTokens members ++ [.rightBrace]
  | .string s => [.text (some s)]
  | scalar => [.scalar scalar]

def itemTokens : List Json → List Token
  | [] => []
  | [item] => tokens item
  | item :: rest => tokens item ++ .comma :: itemTokens rest

def memberTokens : List (String × Json) → List Token
  | [] => []
  | [(name, value)] => .text (some name) :: .colon :: tokens value
  | (name, value) :: rest =>
    .text (some name) :: .colon :: tokens value ++ .comma :: memberTokens rest

end

/-! ## Strings -/

/-- How a character of a string is read back: most as themselves, some control characters as a
    unit. -/
def pieceOf (c : Char) : Piece :=
  if c.toNat < 0x20 ∧ c ∉ ['\x08', '\x0c', '\n', '\r', '\t'] then .unit c.toNat else .char c

theorem hexDigit?_digitChar : ∀ d, d < 16 → hexDigit? (Nat.digitChar d) = some d := by
  decide

theorem tokensFrom_hexDigit (done : List Token) (pieces : List Piece) (left value : Nat) {d : Nat}
    (hd : d < 16) (rest : List Char) :
    tokensFrom done (.unit pieces (left + 1) value) (Nat.digitChar d :: rest) =
      tokensFrom done (if left = 0 then .text (.unit (value * 16 + d) :: pieces)
        else .unit pieces left (value * 16 + d)) rest := by
  rw [tokensFrom, step, hexDigit?_digitChar d hd, Option.map_some]
  cases left <;> rfl

/-- Four digits after a `u` are one unit. -/
theorem tokensFrom_hexUnit (done : List Token) (pieces : List Piece) {n : Nat} (hn : n < 65536)
    (rest : List Char) :
    tokensFrom done (.unit pieces 4 0) (hexUnit n ++ rest) =
      tokensFrom done (.text (.unit n :: pieces)) rest := by
  have hvalue : (((0 * 16 + n / 4096 % 16) * 16 + n / 256 % 16) * 16 + n / 16 % 16) *
      16 + n % 16 = n := by
    omega
  show tokensFrom done (.unit pieces 4 0)
    (Nat.digitChar (n / 4096 % 16) :: Nat.digitChar (n / 256 % 16) ::
    Nat.digitChar (n / 16 % 16) :: Nat.digitChar (n % 16) :: rest) = _
  rw [tokensFrom_hexDigit done pieces 3 _ (by omega), if_neg (by decide),
    tokensFrom_hexDigit done pieces 2 _ (by omega), if_neg (by decide),
    tokensFrom_hexDigit done pieces 1 _ (by omega), if_neg (by decide),
    tokensFrom_hexDigit done pieces 0 _ (by omega), if_pos rfl, hvalue]

theorem tokensFrom_escapedChar (done : List Token) (pieces : List Piece) (c : Char)
    (rest : List Char) : tokensFrom done (.text pieces) (escapedChar c ++ rest) =
      tokensFrom done (.text (pieceOf c :: pieces)) rest := by
  by_cases hsimple : c ∈ ['"', '\\', '\x08', '\x0c', '\n', '\r', '\t']
  · simp only [List.mem_cons, List.not_mem_nil, or_false] at hsimple
    rcases hsimple with rfl | rfl | rfl | rfl | rfl | rfl | rfl <;> rfl
  · simp only [List.mem_cons, List.not_mem_nil, or_false, not_or] at hsimple
    obtain ⟨hquote, hslash, hb, hf, hn, hr, ht⟩ := hsimple
    unfold escapedChar pieceOf
    simp only [hquote, hslash, hb, hf, hn, hr, ht, if_false, List.mem_cons, List.not_mem_nil,
      or_self, not_false_eq_true, and_true]
    by_cases hcontrol : c.toNat < 0x20
    · rw [if_pos hcontrol, if_pos hcontrol]
      exact tokensFrom_hexUnit done pieces (by omega) rest
    · rw [if_neg hcontrol, if_neg hcontrol, List.singleton_append, tokensFrom, step, if_neg hquote,
        if_neg hslash, if_neg hcontrol]
      rfl

theorem tokensFrom_escaped (done : List Token) (pieces : List Piece) (cs rest : List Char) :
    tokensFrom done (.text pieces) (cs.flatMap escapedChar ++ rest) =
      tokensFrom done (.text ((cs.map pieceOf).reverse ++ pieces)) rest := by
  induction cs generalizing pieces with
  | nil => rfl
  | cons c cs ih =>
    rw [List.flatMap_cons, List.append_assoc, tokensFrom_escapedChar, ih, List.map_cons,
      List.reverse_cons, List.append_assoc, List.singleton_append]

/-- A unit that is no half of a pair stands for itself, whatever follows. -/
theorem joinPieces_unit {u : Nat} (hu : u < 0xD800) (rest : List Piece) :
    joinPieces (.unit u :: rest) = (joinPieces rest).map (Char.ofNat u :: ·) := by
  have hhigh : isHighSurrogate u = false := by
    unfold isHighSurrogate
    simp only [Bool.and_eq_false_iff, decide_eq_false_iff_not]
    exact .inl (by omega)
  have hlow : isLowSurrogate u = false := by
    unfold isLowSurrogate
    simp only [Bool.and_eq_false_iff, decide_eq_false_iff_not]
    exact .inl (by omega)
  cases rest with
  | nil => simp only [joinPieces, hhigh, hlow, Bool.or_self, Bool.false_eq_true, if_false]
  | cons piece rest =>
    cases piece <;> simp only [joinPieces, hhigh, hlow, Bool.or_self, Bool.false_eq_true, if_false]

theorem joinPieces_map (cs : List Char) : joinPieces (cs.map pieceOf) = some cs := by
  induction cs with
  | nil => rfl
  | cons c cs ih =>
    rw [List.map_cons, pieceOf]
    split
    · next hcontrol =>
      rw [joinPieces_unit (by omega), ih, Option.map_some, Char.ofNat_toNat]
    · rw [joinPieces, ih, Option.map_some]

theorem tokensFrom_quoted (done : List Token) (s : String) (rest : List Char) :
    tokensFrom done .between (quotedChars s ++ rest) =
      tokensFrom (.text (some s) :: done) .between rest := by
  have hopen : tokensFrom done .between (quotedChars s ++ rest) =
      tokensFrom done (.text []) (s.toList.flatMap escapedChar ++ '"' :: rest) := by
    unfold quotedChars
    rw [List.cons_append, List.cons_append, List.append_assoc, tokensFrom]
    rfl
  rw [hopen, tokensFrom_escaped, List.append_nil, tokensFrom, step, if_pos rfl,
    List.reverse_reverse, joinPieces_map, Option.map_some, String.ofList_toList]
  rfl

/-! ## Numbers and literals -/

/-- What follows a value. -/
def EndsValue (rest : List Char) : Prop :=
  ∀ c more, rest = c :: more → c = ',' ∨ c = ']' ∨ c = rightBrace

theorem endsValue_nil : EndsValue [] := fun c more h => by cases h

theorem endsValue_cons {c : Char} (h : c = ',' ∨ c = ']' ∨ c = rightBrace) (rest : List Char) :
    EndsValue (c :: rest) := by
  rintro c' more heq
  cases heq
  exact h

/-- A number or a literal is complete where the value ends. -/
theorem tokensFrom_finished (mode : Mode) {value : Json}
    (hfinish : finish mode = some [.scalar value])
    (hstep : ∀ c, (c = ',' ∨ c = ']' ∨ c = rightBrace) → step mode c = finishBefore (some value) c)
    (done : List Token) {rest : List Char} (h : EndsValue rest) :
    tokensFrom done mode rest = tokensFrom (.scalar value :: done) .between rest := by
  cases rest with
  | nil =>
    rw [tokensFrom, tokensFrom, hfinish]
    rfl
  | cons c rest =>
    have hc := h c rest rfl
    rw [tokensFrom, tokensFrom, hstep c hc]
    rcases hc with rfl | rfl | rfl <;> rfl

theorem tokensFrom_null (done : List Token) {rest : List Char} (h : EndsValue rest) :
    tokensFrom done .between ("null".toList ++ rest) = tokensFrom (.scalar .null :: done)
      .between rest :=
  tokensFrom_finished (.word ['l', 'l', 'u', 'n']) rfl
    (by rintro c (rfl | rfl | rfl) <;> rfl) done h

theorem tokensFrom_bool (b : Bool) (done : List Token) {rest : List Char} (h : EndsValue rest) :
    tokensFrom done .between (scalarChars (.bool b) ++ rest) =
      tokensFrom (.scalar (.bool b) :: done) .between rest := by
  cases b with
  | true =>
    exact tokensFrom_finished (.word ['e', 'u', 'r', 't']) rfl
      (by rintro c (rfl | rfl | rfl) <;> rfl) done h
  | false =>
    exact tokensFrom_finished (.word ['e', 's', 'l', 'a', 'f']) rfl
      (by rintro c (rfl | rfl | rfl) <;> rfl) done h

theorem isDigit_of_isDigit {c : Char} (h : c.isDigit = true) : isDigit c = true := by
  unfold isDigit
  unfold Char.isDigit at h
  simpa [Char.le_def] using h

theorem isDigit_of_mem_toDigits {n : Nat} {c : Char} (h : c ∈ Nat.toDigits 10 n) :
    isDigit c = true :=
  isDigit_of_isDigit (Nat.isDigit_of_mem_toDigits (by decide) (by decide) h)

theorem digitsValue_toDigits (n : Nat) : digitsValue (Nat.toDigits 10 n) = n := by
  have hfold : ∀ (cs : List Char) (init : Nat),
      cs.foldl (fun value c => value * 10 + (c.toNat - '0'.toNat)) init =
      Nat.ofDigitChars 10 cs init := by
    intro cs init
    unfold Nat.ofDigitChars
    congr 1
    funext value c
    rw [Nat.mul_comm]
  unfold digitsValue
  rw [hfold, Nat.ofDigitChars_ten_toDigits]

/-- Only zero is written with a leading zero. -/
theorem head?_toDigits {n : Nat} (hn : 0 < n) : (Nat.toDigits 10 n).head? ≠ some '0' := by
  induction n using Nat.strongRecOn with
  | ind n ih =>
    rw [Nat.toDigits_eq_if (by decide)]
    split
    · next hlt =>
      have hdigit : ∀ d, d < 10 → 0 < d → [Nat.digitChar d].head? ≠ some '0' := by decide
      exact hdigit n hlt hn
    · have hrest := ih (n / 10) (by omega) (by omega)
      rw [List.head?_append]
      cases hhead : (Nat.toDigits 10 (n / 10)).head? with
      | none => exact absurd (List.head?_eq_none_iff.mp hhead) Nat.toDigits_ne_nil
      | some c =>
        rw [hhead] at hrest
        exact hrest

/-- The digits of a number have no zero in front that does not belong there. -/
theorem no_leading_zero (n : Nat) :
    ((Nat.toDigits 10 n).head? == some '0' && decide (1 < (Nat.toDigits 10 n).length)) = false := by
  rcases Nat.eq_zero_or_pos n with rfl | hn
  · rw [Nat.toDigits_zero]
    rfl
  · rw [beq_eq_false_iff_ne.mpr (head?_toDigits hn), Bool.false_and]

theorem takeWhile_toDigits (n : Nat) :
    (Nat.toDigits 10 n).takeWhile isDigit = Nat.toDigits 10 n := by
  have hall := @List.takeWhile_append_of_pos _ isDigit _ [] (fun c (hc : c ∈ Nat.toDigits 10 n) =>
    isDigit_of_mem_toDigits hc)
  simpa using hall

theorem dropWhile_toDigits (n : Nat) : (Nat.toDigits 10 n).dropWhile isDigit = [] := by
  have hall := @List.dropWhile_append_of_pos _ isDigit _ [] (fun c (hc : c ∈ Nat.toDigits 10 n) =>
    isDigit_of_mem_toDigits hc)
  simpa using hall

theorem numberValue?_intChars (n : Int) : numberValue? (intChars n) = some (.int n) := by
  have hsome : (Nat.toDigits 10 n.natAbs).isEmpty = false :=
    List.isEmpty_eq_false_iff.mpr Nat.toDigits_ne_nil
  unfold numberValue? intChars
  by_cases hneg : n < 0
  · have hvalue : (n.natAbs == 0) = false := by
      rw [beq_eq_false_iff_ne]
      omega
    have hn : -(n.natAbs : Int) = n := by omega
    generalize n.natAbs = k at hsome hvalue hn ⊢
    simp [hneg, takeWhile_toDigits, dropWhile_toDigits, digitsValue_toDigits, hsome,
      no_leading_zero, hvalue, hn]
  · have hn : (n.natAbs : Int) = n := by omega
    have hsign : ∀ rest, Nat.toDigits 10 n.natAbs ≠ '-' :: rest := by
      intro rest heq
      have hdigit := isDigit_of_mem_toDigits (heq ▸ List.mem_cons_self)
      cases hdigit
    rw [if_neg hneg]
    split
    next negative rest heq =>
      split at heq
      · next tail hminus => exact absurd hminus (hsign tail)
      · cases heq
        simp [takeWhile_toDigits, dropWhile_toDigits, digitsValue_toDigits, hsome,
          no_leading_zero, hn]

theorem isNumberChar_intChars (n : Int) : ∀ c ∈ intChars n, isNumberChar c = true := by
  have hdigit : ∀ c, isDigit c = true → isNumberChar c = true := by
    intro c hc
    unfold isNumberChar
    rw [hc]
    rfl
  intro c hc
  unfold intChars at hc
  split at hc
  · rcases List.mem_cons.mp hc with rfl | hc
    · rfl
    · exact hdigit c (isDigit_of_mem_toDigits hc)
  · exact hdigit c (isDigit_of_mem_toDigits hc)

theorem tokensFrom_numberChars (done : List Token) (read cs rest : List Char)
    (h : ∀ c ∈ cs, isNumberChar c = true) :
    tokensFrom done (.number read) (cs ++ rest) =
    tokensFrom done (.number (cs.reverse ++ read)) rest := by
  induction cs generalizing read with
  | nil => rfl
  | cons c cs ih =>
    rw [List.cons_append, tokensFrom, step, if_pos (h c List.mem_cons_self)]
    dsimp only
    rw [List.reverse_nil, List.nil_append, ih _ fun c hc => h c (List.mem_cons_of_mem _ hc),
      List.reverse_cons, List.append_assoc, List.singleton_append]

/-- A number begins with a digit or a minus. -/
theorem start_intChars (n : Int) :
    ∃ c cs, intChars n = c :: cs ∧ start c = some ([], .number [c]) := by
  have hdigit : ∀ c : Char, isDigit c = true → start c = some ([], .number [c]) := by
    intro c hc
    have hrange : 48 ≤ c.toNat ∧ c.toNat ≤ 57 := by
      unfold isDigit at hc
      simpa [Char.le_def, UInt32.le_iff_toNat_le] using hc
    have hother : ∀ d : Char, (d.toNat < 48 ∨ 57 < d.toNat) → c ≠ d := by
      rintro d hd rfl
      omega
    have hblank : isBlank c = false := by
      unfold isBlank
      simp only [Bool.or_eq_false_iff, beq_eq_false_iff_ne]
      exact ⟨⟨⟨hother _ (by decide), hother _ (by decide)⟩, hother _ (by decide)⟩,
        hother _ (by decide)⟩
    unfold start
    rw [hblank, hc, if_neg (hother '[' (by decide)), if_neg (hother ']' (by decide)),
      if_neg (hother '\x7b' (by decide)), if_neg (hother '\x7d' (by decide)),
      if_neg (hother ':' (by decide)), if_neg (hother ',' (by decide)),
      if_neg (hother '"' (by decide)),
      Bool.or_true]
    rfl
  unfold intChars
  split
  · exact ⟨_, _, rfl, rfl⟩
  · cases hds : Nat.toDigits 10 n.natAbs with
    | nil => exact absurd hds Nat.toDigits_ne_nil
    | cons c cs =>
      refine ⟨c, cs, rfl, hdigit c (isDigit_of_mem_toDigits (n := n.natAbs) ?_)⟩
      rw [hds]
      exact List.mem_cons_self

theorem tokensFrom_int (n : Int) (done : List Token) {rest : List Char} (h : EndsValue rest) :
    tokensFrom done .between (intChars n ++ rest) = tokensFrom (.scalar (.int n) :: done)
      .between rest := by
  have hchars := isNumberChar_intChars n
  have hvalue := numberValue?_intChars n
  obtain ⟨c, cs, heq, hstart⟩ := start_intChars n
  rw [heq] at hchars hvalue ⊢
  rw [List.cons_append, tokensFrom, step, hstart]
  dsimp only
  rw [List.reverse_nil, List.nil_append,
    tokensFrom_numberChars done [c] cs rest fun c hc => hchars c (List.mem_cons_of_mem _ hc)]
  have hread : (cs.reverse ++ [c]).reverse = c :: cs := by simp
  refine tokensFrom_finished _ ?_ (fun e he => ?_) done h
  · rw [finish, hread, hvalue]
    rfl
  · rw [step, hread, hvalue]
    rcases he with rfl | rfl | rfl <;> rfl

/-! ## From characters to tokens -/

/-- A sign that is a token of its own. -/
theorem tokensFrom_sign {c : Char} (token : Token) (h : start c = some ([token], .between))
    (done : List Token) (rest : List Char) :
    tokensFrom done .between (c :: rest) = tokensFrom (token :: done) .between rest := by
  rw [tokensFrom, step, h]
  rfl

mutual

/-- The characters of a value give its tokens. -/
theorem tokensFrom_chars : ∀ (j : Json), j.isPlain = true →
    ∀ (done : List Token) {rest : List Char}, EndsValue rest →
    tokensFrom done .between (chars j ++ rest) = tokensFrom ((tokens j).reverse ++ done)
      .between rest
  | .null, _, done, _, h => tokensFrom_null done h
  | .bool b, _, done, _, h => tokensFrom_bool b done h
  | .int n, _, done, _, h => tokensFrom_int n done h
  | .real _, hj, _, _, _ => by cases hj
  | .unreadable, hj, _, _, _ => by cases hj
  | .string s, _, done, rest, _ => tokensFrom_quoted done s rest
  | .array items, hj, done, rest, _ => by
    have hitems : arePlain items = true := by rwa [isPlain] at hj
    rw [chars, tokens, List.append_assoc, List.cons_append, tokensFrom_sign .leftBracket rfl,
      List.singleton_append,
      tokensFrom_itemsChars items hitems _ (endsValue_cons (.inr (.inl rfl)) rest),
      tokensFrom_sign .rightBracket rfl]
    simp
  | .object members, hj, done, rest, _ => by
    have hmembers : membersPlain members = true := by rwa [isPlain] at hj
    rw [chars, tokens, List.append_assoc, List.cons_append, tokensFrom_sign .leftBrace rfl,
      List.singleton_append,
      tokensFrom_membersChars members hmembers _ (endsValue_cons (.inr (.inr rfl)) rest),
      tokensFrom_sign .rightBrace rfl]
    simp

theorem tokensFrom_itemsChars : ∀ (items : List Json), arePlain items = true →
    ∀ (done : List Token) {rest : List Char}, EndsValue rest →
    tokensFrom done .between (itemsChars items ++ rest) =
      tokensFrom ((itemTokens items).reverse ++ done) .between rest
  | [], _, _, _, _ => rfl
  | [item], hitems, done, _, h => by
    rw [arePlain, Bool.and_eq_true] at hitems
    rw [itemsChars, itemTokens]
    exact tokensFrom_chars item hitems.1 done h
  | item :: next :: more, hitems, done, rest, h => by
    rw [arePlain, Bool.and_eq_true] at hitems
    rw [itemsChars, itemTokens, List.append_assoc, List.cons_append,
      tokensFrom_chars item hitems.1 done (endsValue_cons (.inl rfl) _),
      tokensFrom_sign .comma rfl, tokensFrom_itemsChars (next :: more) hitems.2 _ h]
    · simp
    · simp
    · simp

theorem tokensFrom_membersChars : ∀ (members : List (String × Json)), membersPlain members = true →
    ∀ (done : List Token) {rest : List Char}, EndsValue rest →
    tokensFrom done .between (membersChars members ++ rest) =
      tokensFrom ((memberTokens members).reverse ++ done) .between rest
  | [], _, _, _, _ => rfl
  | [(name, value)], hmembers, done, _, h => by
    rw [membersPlain, Bool.and_eq_true] at hmembers
    rw [membersChars, memberTokens, List.append_assoc, tokensFrom_quoted, List.cons_append,
      tokensFrom_sign .colon rfl, tokensFrom_chars value hmembers.1 _ h]
    simp
  | (name, value) :: next :: more, hmembers, done, rest, h => by
    rw [membersPlain, Bool.and_eq_true] at hmembers
    rw [membersChars, memberTokens, List.append_assoc, List.append_assoc, tokensFrom_quoted,
      List.cons_append, List.cons_append, tokensFrom_sign .colon rfl,
      tokensFrom_chars value hmembers.1 _ (endsValue_cons (.inl rfl) _),
      tokensFrom_sign .comma rfl, tokensFrom_membersChars (next :: more) hmembers.2 _ h]
    · simp
    · simp
    · simp

end

/-! ## From tokens to the value -/

theorem run_cons {r : Reader} (next : Reader) {t : Token} (h : r.step t = some next)
    (rest : List Token) : r.run (t :: rest) = next.run rest := by
  rw [Reader.run, h]

/-- A value does not begin with a token that closes an array. -/
theorem run_firstItem (j : Json) (stack : List Frame) (rest : List Token) :
    Reader.run ⟨stack, .firstItem⟩ (tokens j ++ rest) =
    Reader.run ⟨stack, .value⟩ (tokens j ++ rest) := by
  cases j <;> rfl

/-- The members of an object as an open object holds them. -/
def readMembers (members : List (String × Json)) : List (Option String × Json) :=
  members.map fun m => (some m.1, m.2)

theorem mapM_readMembers {f : Option String × Json → Option (String × Json)}
    (hf : ∀ m : String × Json, f (some m.1, m.2) = some m) (members : List (String × Json)) :
    (readMembers members).mapM f = some members := by
  unfold readMembers
  induction members with
  | nil => rfl
  | cons m rest ih =>
    rw [List.map_cons, List.mapM_cons, ih, hf]
    rfl

theorem objectOf_readMembers (members : List (String × Json)) :
    objectOf (readMembers members) = .object members := by
  unfold objectOf
  rw [mapM_readMembers (fun m => rfl)]

mutual

/-- The tokens of a value give the value. -/
theorem run_tokens : ∀ (j : Json), j.isPlain = true → ∀ (stack : List Frame) (rest : List Token),
    Reader.run ⟨stack, .value⟩ (tokens j ++ rest) = (Reader.complete stack j).run rest
  | .null, _, _, _ => rfl
  | .bool _, _, _, _ => rfl
  | .int _, _, _, _ => rfl
  | .real _, hj, _, _ => by cases hj
  | .unreadable, hj, _, _ => by cases hj
  | .string _, _, _, _ => rfl
  | .array [], _, _, _ => rfl
  | .array (item :: more), hj, stack, rest => by
    have hitems : arePlain (item :: more) = true := by rwa [isPlain] at hj
    have hfirst : Reader.run ⟨.array [] :: stack, .firstItem⟩
        (itemTokens (item :: more) ++ .rightBracket :: rest) =
        Reader.run ⟨.array [] :: stack, .value⟩
        (itemTokens (item :: more) ++ .rightBracket :: rest) := by
      cases more with
      | nil =>
        rw [itemTokens]
        exact run_firstItem item _ _
      | cons next more =>
        rw [itemTokens, List.append_assoc]
        · exact run_firstItem item _ _
        · simp
    rw [tokens, List.append_assoc, List.cons_append, List.singleton_append,
      run_cons ⟨.array [] :: stack, .firstItem⟩ rfl, hfirst,
      run_itemTokens (item :: more) (List.cons_ne_nil _ _) hitems, List.append_nil,
      run_cons (Reader.complete stack (.array (item :: more).reverse.reverse)) rfl,
      List.reverse_reverse]
  | .object [], _, _, _ => rfl
  | .object ((name, value) :: more), hj, stack, rest => by
    have hmembers : membersPlain ((name, value) :: more) = true := by rwa [isPlain] at hj
    have hfirst : Reader.run ⟨.object [] none :: stack, .firstName⟩
        (memberTokens ((name, value) :: more) ++ .rightBrace :: rest) =
        Reader.run ⟨.object [] none :: stack, .name⟩
          (memberTokens ((name, value) :: more) ++ .rightBrace :: rest) := by
      cases more <;> rfl
    obtain ⟨last, hlast⟩ :=
      run_memberTokens ((name, value) :: more) (List.cons_ne_nil _ _) hmembers [] none
      stack (.rightBrace :: rest)
    rw [tokens, List.append_assoc, List.cons_append, List.singleton_append,
      run_cons ⟨.object [] none :: stack, .firstName⟩ rfl, hfirst, hlast, List.append_nil,
      run_cons (Reader.complete stack
        (objectOf (readMembers ((name, value) :: more)).reverse.reverse)) rfl,
      List.reverse_reverse, objectOf_readMembers]

theorem run_itemTokens : ∀ (items : List Json), items ≠ [] → arePlain items = true →
    ∀ (read : List Json) (stack : List Frame) (rest : List Token),
    Reader.run ⟨.array read :: stack, .value⟩ (itemTokens items ++ rest) =
      Reader.run ⟨.array (items.reverse ++ read) :: stack, .separator⟩ rest
  | [], hne, _, _, _, _ => absurd rfl hne
  | [item], _, hitems, read, stack, rest => by
    rw [arePlain, Bool.and_eq_true] at hitems
    rw [itemTokens, run_tokens item hitems.1]
    rfl
  | item :: next :: more, _, hitems, read, stack, rest => by
    rw [arePlain, Bool.and_eq_true] at hitems
    rw [itemTokens, List.append_assoc, List.cons_append, run_tokens item hitems.1,
      run_cons ⟨.array (item :: read) :: stack, .value⟩ rfl,
      run_itemTokens (next :: more) (List.cons_ne_nil _ _) hitems.2, List.reverse_cons (a := item),
      List.append_assoc, List.singleton_append]
    simp

theorem run_memberTokens : ∀ (members : List (String × Json)), members ≠ [] →
    membersPlain members = true → ∀ (read : List (Option String × Json)) (name : Option String)
    (stack : List Frame) (rest : List Token),
    ∃ last, Reader.run ⟨.object read name :: stack, .name⟩ (memberTokens members ++ rest) =
      Reader.run ⟨.object ((readMembers members).reverse ++ read) last :: stack, .separator⟩ rest
  | [], hne, _, _, _, _, _ => absurd rfl hne
  | [(first, value)], _, hmembers, read, name, stack, rest => by
    rw [membersPlain, Bool.and_eq_true] at hmembers
    refine ⟨some first, ?_⟩
    rw [memberTokens, List.cons_append, List.cons_append,
      run_cons ⟨.object read (some first) :: stack, .colon⟩ rfl,
      run_cons ⟨.object read (some first) :: stack, .value⟩ rfl, run_tokens value hmembers.1]
    rfl
  | (first, value) :: next :: more, _, hmembers, read, name, stack, rest => by
    rw [membersPlain, Bool.and_eq_true] at hmembers
    obtain ⟨last, hlast⟩ := run_memberTokens (next :: more) (List.cons_ne_nil _ _) hmembers.2
      ((some first, value) :: read) (some first) stack rest
    refine ⟨last, ?_⟩
    rw [memberTokens, List.cons_append, List.cons_append, List.append_assoc,
      run_cons ⟨.object read (some first) :: stack, .colon⟩ rfl, List.cons_append,
      run_cons ⟨.object read (some first) :: stack, .value⟩ rfl, run_tokens value hmembers.1,
      List.cons_append,
      run_cons ⟨.object ((some first, value) :: read) (some first) :: stack, .name⟩ rfl, hlast]
    · simp [readMembers]
    · simp

end

/-- The text of a value in one line reads back as the value. -/
theorem parse?_compact {j : Json} (h : j.isPlain = true) : parse? j.compact = some j := by
  have htokens : tokens? j.compact.toList = some (tokens j) := by
    unfold tokens? compact
    have hread := tokensFrom_chars j h [] endsValue_nil
    rw [List.append_nil, List.append_nil] at hread
    rw [String.toList_ofList, hread, tokensFrom]
    simp [finish]
  have hrun : Reader.run {} (tokens j) = some (Reader.complete [] j) := by
    have hread := run_tokens j h [] []
    rw [List.append_nil] at hread
    exact hread
  unfold parse?
  simp only [htokens, hrun, Option.bind_eq_bind, Option.bind_some]
  rfl

end ZAssembler.Json
