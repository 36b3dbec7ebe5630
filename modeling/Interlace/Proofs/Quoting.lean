import Interlace.Toml.Quoted

/-!
# What is written in quotes is read back

Whichever way of quoting is taken for a string, the string is read back from it, and nothing of what
follows is taken for a part of it. Where quotes stand for themselves, it matters how many come in a
row: three of them end a string on several lines, which may itself end in two.
-/

namespace Interlace.Toml.Quoted

/-! ## Strings with escapes -/

theorem hexDigit?_hexDigit : ∀ n < 16, hexDigit? (hexDigit n) = some n := by decide

theorem toNat_of_isControl {c : Char} (hControl : isControl c = true) : c.toNat < 0x80 := by
  simp only [isControl, Bool.or_eq_true, decide_eq_true_eq, beq_iff_eq] at hControl
  omega

theorem scalar?_of_control {c : Char} (hControl : isControl c = true) :
    scalar? ['0', '0', hexDigit (c.toNat / 16), hexDigit (c.toNat % 16)] = some c := by
  have hSmall := toNat_of_isControl hControl
  have hZero : hexDigit? '0' = some 0 := by decide
  have hValue : ((0 * 16 + 0) * 16 + c.toNat / 16) * 16 + c.toNat % 16 = c.toNat := by omega
  have hValid : c.toNat.isValidChar := c.valid
  simp only [scalar?, List.foldlM_cons, List.foldlM_nil, hZero,
    hexDigit?_hexDigit _ (show c.toNat / 16 < 16 by omega),
    hexDigit?_hexDigit _ (show c.toNat % 16 < 16 by omega), Option.map_some, Option.bind_some,
    bind, pure, hValue, if_pos hValid, Char.ofNat_toNat]

theorem escape?_of_letter {long : Bool} {c l : Char} (hLetter : letter? long c = some l) :
    escape? l = some c ∧ l ≠ 'u' ∧ l ≠ 'U' := by
  unfold letter? at hLetter
  split at hLetter
  case h_3 =>
    split at hLetter <;> cases hLetter
    decide
  all_goals
    cases hLetter
    try decide

theorem ne_of_letter_none {long : Bool} {c : Char} (hNone : letter? long c = none) :
    c ≠ '\\' ∧ c ≠ '\r' := by
  constructor <;> (rintro rfl; cases hNone)

variable {long : Bool} {c l : Char} {rest : List Char}

theorem basic_letter (hLetter : letter? long c = some l) :
    basic long false ('\\' :: l :: rest) = (basic long false rest).push c := by
  obtain ⟨hEscape, hu, hU⟩ := escape?_of_letter hLetter
  simp [basic, hEscape, hu, hU]

theorem basic_quote_escaped :
    basic long false ('\\' :: '"' :: rest) = (basic long false rest).push '"' := rfl

theorem basic_control (hControl : isControl c = true) :
    basic long false ('\\' :: 'u' :: '0' :: '0' :: hexDigit (c.toNat / 16) ::
      hexDigit (c.toNat % 16) :: rest) = (basic long false rest).push c := by
  simp [basic, scalar?_of_control hControl]

theorem basic_plain (hQuote : c ≠ '"') (hBackslash : c ≠ '\\') (hReturn : c ≠ '\r')
    (hPlain : isPlain long c = true) :
    basic long false (c :: rest) = (basic long false rest).push c := by
  simp [basic, hQuote, hBackslash, hReturn, hPlain]

theorem isPlain_of_written (hControl : (isControl c && !(long && c == '\n')) = false) :
    isPlain long c = true := by
  cases hIs : isControl c with
  | false => simp [isPlain, hIs]
  | true =>
    have hLine : long = true ∧ c = '\n' := by simpa [hIs] using hControl
    simp [isPlain, hLine]

theorem basic_escaped_cons {seen : Nat} (hQuote : c ≠ '"') (cs tail : List Char) :
    basic long false (escaped long seen (c :: cs) ++ tail) =
      (basic long false (escaped long 0 cs ++ tail)).push c := by
  rw [escaped, if_neg hQuote]
  cases hLetter : letter? long c with
  | some l => exact basic_letter hLetter
  | none =>
    obtain ⟨hBackslash, hReturn⟩ := ne_of_letter_none hLetter
    dsimp only
    cases hControl : isControl c && !(long && c == '\n') with
    | true =>
      rw [if_pos rfl]
      exact basic_control (Bool.and_eq_true_iff.mp hControl).1
    | false =>
      exact basic_plain hQuote hBackslash hReturn (isPlain_of_written hControl)

def TwoQuotes (quote : Char) (cs : List Char) : Prop := ∃ rest, cs = quote :: quote :: rest

theorem basic_quote (hTwo : ¬TwoQuotes '"' rest) : basic long false ('"' :: rest) =
    if long then (basic long false rest).push '"' else some ([], rest) := by
  have hNot : ∀ rest', rest ≠ '"' :: '"' :: rest' := not_exists.mp hTwo
  simp [basic]

theorem basic_close (tail : List Char) : basic false false ('"' :: tail) = some ([], tail) := by
  by_cases hTwo : TwoQuotes '"' tail
  · obtain ⟨rest, rfl⟩ := hTwo
    rfl
  · exact basic_quote hTwo

theorem basic_close_long (tail : List Char) :
    basic true false ('"' :: '"' :: '"' :: tail) = some (close '"' tail) := rfl

/-- A string with escapes on one line is read up to its closing quote. -/
theorem basic_escaped (cs tail : List Char) :
    basic false false (escaped false 0 cs ++ '"' :: tail) = some (cs, tail) := by
  induction cs with
  | nil => exact basic_close tail
  | cons c cs ih =>
    by_cases hQuote : c = '"'
    · subst hQuote
      have hWritten : escaped false 0 ('"' :: cs) = '\\' :: '"' :: escaped false 0 cs := by
        simp [escaped]
      rw [hWritten, List.cons_append, List.cons_append, basic_quote_escaped, ih]
      rfl
    · rw [basic_escaped_cons hQuote, ih]
      rfl

theorem head_escaped (long : Bool) (seen : Nat) (c : Char) (cs : List Char) :
    ∃ d ds, escaped long seen (c :: cs) = d :: ds ∧ (d = '\\' ∨
      d = '"' ∧ c = '"' ∧ long = true ∧ seen < 2 ∨ d = c ∧ c ≠ '"' ∧ c ≠ '\r') := by
  rw [escaped]
  by_cases hQuote : c = '"'
  · rw [if_pos hQuote]
    by_cases hSeen : (long && decide (seen < 2)) = true
    · rw [if_pos hSeen]
      simp only [Bool.and_eq_true, decide_eq_true_eq] at hSeen
      exact ⟨_, _, rfl, .inr (.inl ⟨rfl, hQuote, hSeen⟩)⟩
    · rw [if_neg hSeen]
      exact ⟨_, _, rfl, .inl rfl⟩
  · rw [if_neg hQuote]
    cases hLetter : letter? long c with
    | some l => exact ⟨_, _, rfl, .inl rfl⟩
    | none =>
      dsimp only
      split
      · exact ⟨_, _, rfl, .inl rfl⟩
      · exact ⟨_, _, rfl, .inr (.inr ⟨rfl, hQuote, (ne_of_letter_none hLetter).2⟩)⟩

theorem close_of_ne {quote : Char} {tail : List Char} (hTail : tail.head? ≠ some quote) :
    close quote tail = ([], tail) ∧ close quote (quote :: tail) = ([quote], tail) ∧
      close quote (quote :: quote :: tail) = ([quote, quote], tail) := by
  match tail with
  | [] => simp [close]
  | [c] =>
    have hc : c ≠ quote := by simpa using hTail
    simp [close, hc]
  | c :: d :: rest =>
    have hc : c ≠ quote := by simpa using hTail
    simp [close, hc]

theorem of_head_escaped {seen : Nat} {c : Char} {cs rest tail : List Char}
    (hHead : escaped true seen (c :: cs) ++ tail = '"' :: rest) :
    c = '"' ∧ seen < 2 ∧ rest = escaped true (seen + 1) cs ++ tail := by
  obtain ⟨d, ds, hWritten, hFirst⟩ := head_escaped true seen c cs
  obtain rfl : d = '"' := by
    rw [hWritten] at hHead
    exact (List.cons.inj hHead).1
  rcases hFirst with hEq | ⟨-, rfl, -, hSeen⟩ | ⟨rfl, hQuote, -⟩
  · cases hEq
  · refine ⟨rfl, hSeen, ?_⟩
    rw [escaped, if_pos rfl, if_pos (by simpa using hSeen)] at hHead
    exact (List.cons.inj hHead).2.symm
  · exact absurd rfl hQuote

theorem of_twoQuotes_escaped {seen : Nat} {cs tail : List Char}
    (hTwo : TwoQuotes '"' (escaped true (seen + 1) cs ++ tail)) :
    escaped true (seen + 1) cs = cs ∧ (cs = [] ∨ cs = ['"']) := by
  obtain ⟨rest, hTwo⟩ := hTwo
  cases cs with
  | nil => exact ⟨rfl, .inl rfl⟩
  | cons c cs =>
    obtain ⟨rfl, hSeen, hRest⟩ := of_head_escaped hTwo
    cases cs with
    | nil => exact ⟨by simp [escaped, hSeen], .inr rfl⟩
    | cons e es =>
      obtain ⟨-, hSeen', -⟩ := of_head_escaped hRest.symm
      omega

theorem basic_escaped_long {tail : List Char} (hTail : tail.head? ≠ some '"') (cs : List Char) :
    ∀ seen, basic true false (escaped true seen cs ++ '"' :: '"' :: '"' :: tail) =
      some (cs, tail) := by
  obtain ⟨hNone, hOne, hBoth⟩ := close_of_ne hTail
  induction cs with
  | nil =>
    intro seen
    rw [escaped, List.nil_append, basic_close_long, hNone]
  | cons c cs ih =>
    intro seen
    by_cases hQuote : c = '"'
    case neg =>
      rw [basic_escaped_cons hQuote, ih]
      rfl
    subst hQuote
    by_cases hSeen : seen < 2
    case neg =>
      have hWritten : escaped true seen ('"' :: cs) = '\\' :: '"' :: escaped true 0 cs := by
        simp [escaped, hSeen]
      rw [hWritten, List.cons_append, List.cons_append, basic_quote_escaped, ih]
      rfl
    have hWritten : escaped true seen ('"' :: cs) = '"' :: escaped true (seen + 1) cs := by
      simp [escaped, hSeen]
    rw [hWritten, List.cons_append]
    -- If two quotes follow this one, then it is the first of those at the end.
    by_cases hTwo : TwoQuotes '"' (escaped true (seen + 1) cs ++ '"' :: '"' :: '"' :: tail)
    case neg =>
      rw [basic_quote hTwo, ih]
      rfl
    obtain ⟨hSame, rfl | rfl⟩ := of_twoQuotes_escaped hTwo
    · rw [hSame, List.nil_append, basic_close_long, hOne]
    · rw [hSame]
      exact (basic_close_long _).trans (congrArg some hBoth)

/-! ## Strings without escapes -/

theorem literal_plain (hQuote : c ≠ '\'') (hReturn : c ≠ '\r') (hPlain : isPlain long c = true) :
    literal long (c :: rest) = (literal long rest).push c := by
  simp [literal, hQuote, hReturn, hPlain]

theorem literal_quote (hTwo : ¬TwoQuotes '\'' rest) : literal long ('\'' :: rest) =
    if long then (literal long rest).push '\'' else some ([], rest) := by
  have hNot : ∀ rest', rest ≠ '\'' :: '\'' :: rest' := not_exists.mp hTwo
  simp [literal]

theorem literal_close (tail : List Char) : literal false ('\'' :: tail) = some ([], tail) := by
  by_cases hTwo : TwoQuotes '\'' tail
  · obtain ⟨rest, rfl⟩ := hTwo
    rfl
  · exact literal_quote hTwo

theorem literal_close_long (tail : List Char) :
    literal true ('\'' :: '\'' :: '\'' :: tail) = some (close '\'' tail) := rfl

theorem not_isRaw {cs : List Char} (hRaw : cs.any isRaw = false) (hc : c ∈ cs) :
    c ≠ '\r' ∧ (isPlain false c = true ∨ c = '\n') := by
  have hNot : isRaw c = false := by simpa using List.any_eq_false.mp hRaw c hc
  constructor
  · rintro rfl
    cases hNot
  · cases hIs : isControl c with
    | false => exact .inl (by simp [isPlain, hIs])
    | true =>
      simp [isRaw, hIs] at hNot
      by_cases hTab : c = '\t'
      · exact .inl (by simp [isPlain, hTab])
      · exact .inr (hNot hTab)

theorem literal_self {cs : List Char} (hRaw : cs.any isRaw = false) (hLine : '\n' ∉ cs)
    (hQuote : '\'' ∉ cs) (tail : List Char) :
    literal false (cs ++ '\'' :: tail) = some (cs, tail) := by
  induction cs with
  | nil => exact literal_close tail
  | cons c cs ih =>
    obtain ⟨hReturn, hPlain⟩ := not_isRaw hRaw List.mem_cons_self
    simp only [List.any_cons, Bool.or_eq_false_iff, List.mem_cons, not_or] at hRaw hLine hQuote
    have hPlain' := hPlain.resolve_right (Ne.symm hLine.1)
    rw [List.cons_append, literal_plain (Ne.symm hQuote.1) hReturn hPlain',
      ih hRaw.2 hLine.2 hQuote.2]
    rfl

theorem le_longestRun (q : Char) (n : Nat) (cs : List Char) : n ≤ longestRun q n cs := by
  induction cs generalizing n with
  | nil => exact Nat.le_refl n
  | cons c cs ih =>
    rw [longestRun]
    split
    · exact Nat.le_of_succ_le (ih (n + 1))
    · exact Nat.le_max_left n _

theorem longestRun_of_ne {q : Char} (hc : c ≠ q) (n : Nat) (cs : List Char) :
    longestRun q n (c :: cs) = max n (longestRun q 0 cs) := by
  rw [longestRun, if_neg hc]

theorem longestRun_self (q : Char) (n : Nat) (cs : List Char) :
    longestRun q n (q :: cs) = longestRun q (n + 1) cs := by
  rw [longestRun, if_pos rfl]

theorem not_mem_of_longestRun {q : Char} {n : Nat} {cs : List Char} (hRun : longestRun q n cs = 0) :
    q ∉ cs := by
  induction cs generalizing n with
  | nil => exact List.not_mem_nil
  | cons c cs ih =>
    by_cases hc : c = q
    · subst hc
      rw [longestRun_self] at hRun
      have hLe := le_longestRun c (n + 1) cs
      omega
    · rw [longestRun_of_ne hc] at hRun
      have hRest : longestRun q 0 cs = 0 := by omega
      rw [List.mem_cons, not_or]
      exact ⟨Ne.symm hc, ih hRest⟩

theorem of_twoQuotes_run {q : Char} {n : Nat} {cs tail : List Char}
    (hRun : longestRun q (n + 1) cs ≤ 2) (hTwo : TwoQuotes q (cs ++ tail)) :
    cs = [] ∨ cs = [q] := by
  obtain ⟨rest, hTwo⟩ := hTwo
  match cs with
  | [] => exact .inl rfl
  | [c] => exact .inr (by rw [(List.cons.inj hTwo).1])
  | c :: d :: cs =>
    cases hTwo
    rw [longestRun_self, longestRun_self] at hRun
    have hLe := le_longestRun q (n + 1 + 1 + 1) cs
    omega

theorem literal_self_long {tail : List Char} (hTail : tail.head? ≠ some '\'') (cs : List Char)
    (hRaw : cs.any isRaw = false) : ∀ n, longestRun '\'' n cs ≤ 2 →
      literal true (cs ++ '\'' :: '\'' :: '\'' :: tail) = some (cs, tail) := by
  obtain ⟨hNone, hOne, hBoth⟩ := close_of_ne hTail
  induction cs with
  | nil =>
    intro n _
    rw [List.nil_append, literal_close_long, hNone]
  | cons c cs ih =>
    intro n hRun
    obtain ⟨hReturn, hPlain⟩ := not_isRaw hRaw List.mem_cons_self
    have hRest : cs.any isRaw = false := by
      simp only [List.any_cons, Bool.or_eq_false_iff] at hRaw
      exact hRaw.2
    rw [List.cons_append]
    by_cases hQuote : c = '\''
    case neg =>
      rw [longestRun_of_ne hQuote] at hRun
      have hPlain' : isPlain true c = true := by
        rcases hPlain with hPlain | rfl
        · simp only [isPlain, Bool.or_eq_true] at hPlain ⊢
          exact .inl (hPlain.resolve_right (by simp))
        · rfl
      rw [literal_plain hQuote hReturn hPlain', ih hRest 0 (by omega)]
      rfl
    subst hQuote
    rw [longestRun_self] at hRun
    by_cases hTwo : TwoQuotes '\'' (cs ++ '\'' :: '\'' :: '\'' :: tail)
    case neg =>
      rw [literal_quote hTwo, ih hRest _ hRun]
      rfl
    rcases of_twoQuotes_run hRun hTwo with rfl | rfl
    · rw [List.nil_append, literal_close_long, hOne]
    · exact (literal_close_long _).trans (congrArg some hBoth)

/-! ## All strings -/

theorem read?_eq_readShort? {quote : Char} (hTwo : ¬TwoQuotes quote rest) :
    read? (quote :: rest) = readShort? (quote :: rest) := by
  have hNot : ∀ rest', rest ≠ quote :: quote :: rest' := not_exists.mp hTwo
  rw [read?.eq_def]
  split
  case h_1 hEq | h_2 hEq =>
    obtain ⟨rfl, hRest⟩ := List.cons.inj hEq
    exact absurd hRest (hNot _)
  case h_3 => rfl

theorem dropLineEnd_lead {cs text : List Char}
    (hText : '\n' ∉ cs → text.head? ≠ some '\n' ∧ text.head? ≠ some '\r') :
    dropLineEnd (lead cs ++ text) = text := by
  by_cases hLine : '\n' ∈ cs
  · simp [lead, hLine, dropLineEnd]
  · obtain ⟨hNewline, hReturn⟩ := hText hLine
    match text with
    | [] => simp [lead, hLine, dropLineEnd]
    | c :: text =>
      have hc : c ≠ '\n' ∧ c ≠ '\r' := by simpa using And.intro hNewline hReturn
      simp [lead, hLine, dropLineEnd, hc]

theorem not_twoQuotes {quote : Char} (hRest : rest.head? ≠ some quote) : ¬TwoQuotes quote rest := by
  rintro ⟨rest', rfl⟩
  exact hRest rfl

theorem of_way_literal {cs : List Char} (hWay : way cs = .literal) :
    cs.any isRaw = false ∧ '\n' ∉ cs ∧ '\'' ∉ cs := by
  simp only [way] at hWay
  split at hWay
  · cases hWay
  split at hWay
  case isTrue hLiteral =>
    simp only [Bool.and_eq_true, Bool.not_eq_true', beq_iff_eq, List.contains_eq_mem,
      decide_eq_false_iff_not] at hLiteral
    obtain ⟨⟨hRaw, hRun⟩, hLine⟩ := hLiteral
    exact ⟨hRaw, hLine, not_mem_of_longestRun hRun⟩
  case isFalse =>
    repeat' split at hWay
    all_goals cases hWay

theorem of_way_longLiteral {cs : List Char} (hWay : way cs = .longLiteral) :
    cs.any isRaw = false ∧ longestRun '\'' 0 cs ≤ 2 := by
  simp only [way] at hWay
  split at hWay
  · cases hWay
  split at hWay
  · cases hWay
  split at hWay
  · cases hWay
  split at hWay
  case isTrue hLiteral =>
    simpa only [Bool.and_eq_true, Bool.not_eq_true', decide_eq_true_eq] using hLiteral
  case isFalse => split at hWay <;> cases hWay

section

variable (cs : List Char) {tail : List Char}

theorem read?_basic (hTail : tail.head? ≠ some '"') :
    read? ('"' :: (escaped false 0 cs ++ '"' :: tail)) = some (cs, tail) := by
  have hTwo : ¬TwoQuotes '"' (escaped false 0 cs ++ '"' :: tail) := by
    cases cs with
    | nil =>
      rintro ⟨rest, hEq⟩
      exact hTail (by rw [(List.cons.inj hEq).2]; rfl)
    | cons c cs =>
      obtain ⟨d, ds, hWritten, hFirst⟩ := head_escaped false 0 c cs
      refine not_twoQuotes ?_
      rw [hWritten, List.cons_append, List.head?_cons]
      rcases hFirst with rfl | ⟨-, -, hLong, -⟩ | ⟨rfl, hQuote, -⟩
      · decide
      · cases hLong
      · simpa using hQuote
  rw [read?_eq_readShort? hTwo]
  exact basic_escaped cs tail

theorem read?_literal (hRaw : cs.any isRaw = false) (hLine : '\n' ∉ cs) (hQuote : '\'' ∉ cs)
    (hTail : tail.head? ≠ some '\'') :
    read? ('\'' :: (cs ++ '\'' :: tail)) = some (cs, tail) := by
  have hTwo : ¬TwoQuotes '\'' (cs ++ '\'' :: tail) := by
    cases cs with
    | nil =>
      rintro ⟨rest, hEq⟩
      exact hTail (by rw [(List.cons.inj hEq).2]; rfl)
    | cons c cs =>
      refine not_twoQuotes fun hHead => hQuote ?_
      rw [List.cons_append, List.head?_cons] at hHead
      rw [Option.some.inj hHead]
      exact List.mem_cons_self
  rw [read?_eq_readShort? hTwo]
  exact literal_self hRaw hLine hQuote tail

theorem read?_longBasic (hTail : tail.head? ≠ some '"') :
    read? ('"' :: '"' :: '"' :: (lead cs ++ (escaped true 0 cs ++ '"' :: '"' :: '"' :: tail))) =
      some (cs, tail) := by
  rw [read?, dropLineEnd_lead, basic_escaped_long hTail]
  intro hLine
  cases cs with
  | nil => simp [escaped]
  | cons c cs =>
    obtain ⟨d, ds, hWritten, hFirst⟩ := head_escaped true 0 c cs
    rw [hWritten, List.cons_append, List.head?_cons]
    rcases hFirst with rfl | ⟨rfl, -⟩ | ⟨rfl, -, hReturn⟩
    · decide
    · decide
    · have hNewline : d ≠ '\n' := fun hEq => hLine (by rw [hEq]; exact List.mem_cons_self)
      simpa using And.intro hNewline hReturn

theorem read?_longLiteral (hRaw : cs.any isRaw = false) (hRun : longestRun '\'' 0 cs ≤ 2)
    (hTail : tail.head? ≠ some '\'') :
    read? ('\'' :: '\'' :: '\'' :: (lead cs ++ (cs ++ '\'' :: '\'' :: '\'' :: tail))) =
      some (cs, tail) := by
  rw [read?, dropLineEnd_lead, literal_self_long hTail cs hRaw 0 hRun]
  intro hLine
  cases cs with
  | nil => simp
  | cons c cs =>
    have hReturn := (not_isRaw hRaw List.mem_cons_self).1
    have hNewline : c ≠ '\n' := fun hEq => hLine (by rw [hEq]; exact List.mem_cons_self)
    simpa using And.intro hNewline hReturn

/-- A string in quotes is read back as it is, whatever follows, unless that is another quote. -/
theorem read?_write (hTail : tail.head? ≠ some '"' ∧ tail.head? ≠ some '\'') :
    read? (write cs ++ tail) = some (cs, tail) := by
  obtain ⟨hDouble, hSingle⟩ := hTail
  rw [write]
  cases hWay : way cs with
  | basic => simpa using read?_basic cs hDouble
  | longBasic => simpa using read?_longBasic cs hDouble
  | literal =>
    obtain ⟨hRaw, hLine, hQuote⟩ := of_way_literal hWay
    simpa using read?_literal cs hRaw hLine hQuote hSingle
  | longLiteral =>
    obtain ⟨hRaw, hRun⟩ := of_way_longLiteral hWay
    simpa using read?_longLiteral cs hRaw hRun hSingle

end

end Interlace.Toml.Quoted
