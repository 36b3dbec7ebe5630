import Interlace.Json.Draft
import Interlace.Proofs.Data

/-!
# What is written is read back

A document in its text without blanks is read back as it is, to the end of the text, provided that
each of its numbers, written alone, is. What follows a part of the text cannot be taken for a
continuation of the part.
-/

namespace Interlace.Json

/-! ## Strings -/

theorem hexValue?_hexDigit : ∀ n < 16, hexValue? (hexDigit n) = some n := by decide

theorem readHex_of_control {c : Char} (hControl : c.toNat < 0x20) (rest : List Char) :
    readHex ('0' :: '0' :: hexDigit (c.toNat / 16) :: hexDigit (c.toNat % 16) :: rest) =
      .ok (c.toNat, rest) := by
  have hZero : hexValue? '0' = some 0 := by decide
  have hValue : ((0 * 16 + 0) * 16 + c.toNat / 16) * 16 + c.toNat % 16 = c.toNat := by omega
  simp only [readHex, hZero, hexValue?_hexDigit _ (show c.toNat / 16 < 16 by omega),
    hexValue?_hexDigit _ (show c.toNat % 16 < 16 by omega), hValue]

theorem readUnicode_of_control {c : Char} (hControl : c.toNat < 0x20) (rest : List Char) :
    readUnicode ('0' :: '0' :: hexDigit (c.toNat / 16) :: hexDigit (c.toNat % 16) :: rest) =
      .ok (c, rest) := by
  rw [readUnicode, readHex_of_control hControl]
  simp only [bind, Except.bind, pure, Except.pure]
  rw [if_neg (by omega), if_pos (by omega), Char.ofNat_toNat]

theorem unescape?_of_short {c l : Char} (hShort : shortEscape? c = some l) :
    unescape? l = some c ∧ l ≠ 'u' := by
  unfold shortEscape? at hShort
  split at hShort <;> cases hShort <;> decide

theorem not_escaped {c : Char} (hNone : shortEscape? c = none) : c ≠ '"' ∧ c ≠ '\\' := by
  constructor <;> (rintro rfl; cases hNone)

theorem readString_escape (fuel : Nat) (read : List Char) (c : Char) (tail : List Char) :
    readString (fuel + 1) read (escape c ++ tail) = readString fuel (c :: read) tail := by
  unfold escape
  split
  case h_1 l hShort =>
    obtain ⟨hUnescape, hu⟩ := unescape?_of_short hShort
    simp [readString, hUnescape]
  case h_2 hNone =>
    obtain ⟨hQuote, hBackslash⟩ := not_escaped hNone
    by_cases hControl : c.toNat < 0x20
    · simp [hControl, readString, readUnicode_of_control hControl, bind, Except.bind]
    · simp [hControl, readString, hQuote, hBackslash]

theorem skipString_escape (fuel : Nat) (c : Char) (tail : List Char) :
    skipString (fuel + 1) (escape c ++ tail) = skipString fuel tail := by
  unfold escape
  split
  case h_1 l hShort =>
    obtain ⟨hUnescape, hu⟩ := unescape?_of_short hShort
    simp [skipString, hUnescape]
  case h_2 hNone =>
    obtain ⟨hQuote, hBackslash⟩ := not_escaped hNone
    by_cases hControl : c.toNat < 0x20
    · simp [hControl, skipString, readHex_of_control hControl, bind, Except.bind]
    · simp [hControl, skipString, hQuote, hBackslash]

def inside (cs rest : List Char) : List Char :=
  cs.foldr (fun c tail => escape c ++ tail) ('"' :: rest)

theorem readString_inside (cs : List Char) (rest : List Char) :
    ∀ (fuel : Nat) (read : List Char), cs.length < fuel →
      readString fuel read (inside cs rest) = .ok (read.reverse ++ cs) := by
  induction cs with
  | nil =>
    intro fuel read hFuel
    cases fuel with
    | zero => cases hFuel
    | succ fuel => simp [inside, readString]
  | cons c cs ih =>
    intro fuel read hFuel
    cases fuel with
    | zero => cases hFuel
    | succ fuel =>
      rw [inside, List.foldr_cons, readString_escape, ← inside,
        ih _ _ (Nat.lt_of_succ_lt_succ hFuel)]
      simp

theorem skipString_inside (cs : List Char) (rest : List Char) :
    ∀ fuel : Nat, cs.length < fuel → skipString fuel (inside cs rest) = .ok rest := by
  induction cs with
  | nil =>
    intro fuel hFuel
    cases fuel with
    | zero => cases hFuel
    | succ fuel => simp [inside, skipString]
  | cons c cs ih =>
    intro fuel hFuel
    cases fuel with
    | zero => cases hFuel
    | succ fuel =>
      rw [inside, List.foldr_cons, skipString_escape, ← inside, ih _ (Nat.lt_of_succ_lt_succ hFuel)]

theorem length_escape_pos (c : Char) : 0 < (escape c).length := by
  unfold escape
  split
  · exact Nat.succ_pos _
  · split <;> exact Nat.succ_pos _

theorem length_inside (cs rest : List Char) :
    cs.length + rest.length < (inside cs rest).length := by
  induction cs with
  | nil => simp [inside]
  | cons c cs ih =>
    have hEscape := length_escape_pos c
    simp only [inside, List.foldr_cons, List.length_append, List.length_cons] at ih ⊢
    omega

theorem stringAt_inside (s : String) (rest : List Char) :
    stringAt (inside s.toList rest) = .ok (.ok s, rest) := by
  have hFuel : s.toList.length < (inside s.toList rest).length + 1 := by
    have hInside := length_inside s.toList rest
    omega
  rw [stringAt, readString_inside _ _ _ _ hFuel, skipString_inside _ _ _ hFuel]
  simp [Except.map]

/-! ## Numbers -/

/-- What follows cannot belong to a value. -/
def Stops (rest : List Char) : Prop := ∀ c, rest.head? = some c → c = ',' ∨ c = ']' ∨ c = '}'

theorem stops_nil : Stops [] := by
  intro c hc
  cases hc

theorem stops_cons {c : Char} (hc : c = ',' ∨ c = ']' ∨ c = '}') (rest : List Char) :
    Stops (c :: rest) := by
  intro c' hc'
  cases hc'
  exact hc

namespace Stops

variable {rest : List Char} (h : Stops rest)
include h

theorem head?_ne {c : Char} (hc : c ≠ ',' ∧ c ≠ ']' ∧ c ≠ '}') : rest.head? ≠ some c := by
  intro hHead
  rcases h c hHead with rfl | rfl | rfl <;> simp at hc

theorem not_digit : ∀ c, rest.head? = some c → isDigit c = false := by
  intro c hHead
  rcases h c hHead with rfl | rfl | rfl <;> decide

theorem takeWhile_append (cs : List Char) :
    (cs ++ rest).takeWhile isDigit = cs.takeWhile isDigit ∧
      (cs ++ rest).dropWhile isDigit = cs.dropWhile isDigit ++ rest := by
  induction cs with
  | nil =>
    cases rest with
    | nil => exact ⟨rfl, rfl⟩
    | cons c rest =>
      have hDigit := h.not_digit c rfl
      simp [hDigit]
  | cons c cs ih =>
    cases hDigit : isDigit c with
    | true => simp [hDigit, ih]
    | false => simp [hDigit]

theorem head?_append {c : Char} (hc : c ≠ ',' ∧ c ≠ ']' ∧ c ≠ '}') (cs : List Char) :
    ((cs ++ rest).head? == some c) = (cs.head? == some c) := by
  cases cs with
  | nil => simpa using h.head?_ne hc
  | cons => rfl

end Stops

theorem drop_append_of_ne_nil {cs : List Char} (hcs : cs ≠ []) (rest : List Char) :
    (cs ++ rest).drop 1 = cs.drop 1 ++ rest := by
  cases cs with
  | nil => exact absurd rfl hcs
  | cons => rfl

theorem ne_nil_of_head? {cs : List Char} {c : Char} (hHead : (cs.head? == some c) = true) :
    cs ≠ [] := by
  rintro rfl
  cases hHead

theorem bind_eq_ok {α β ε : Type} {x : Except ε α} {f : α → Except ε β} {c : β} :
    (x >>= f) = .ok c ↔ ∃ a, x = .ok a ∧ f a = .ok c := by
  cases x <;> simp [bind, Except.bind]

theorem map_eq_ok {α β ε : Type} {x : Except ε α} {f : α → β} {c : β} :
    f <$> x = .ok c ↔ ∃ a, x = .ok a ∧ f a = c := by
  cases x <;> simp [Functor.map, Except.map]

section Append

variable {cs rest after : List Char} (hStops : Stops rest)
include hStops

theorem readDigits_append {ds : List Char} (hRead : readDigits cs = .ok (ds, after)) :
    readDigits (cs ++ rest) = .ok (ds, after ++ rest) := by
  obtain ⟨hTake, hDrop⟩ := hStops.takeWhile_append cs
  unfold readDigits at hRead ⊢
  rw [hTake, hDrop]
  by_cases hEmpty : (cs.takeWhile isDigit).isEmpty = true
  · rw [if_pos hEmpty] at hRead
    cases hRead
  · rw [if_neg hEmpty] at hRead ⊢
    cases hRead
    rfl

theorem readFraction_append {fraction : Option (List Char)}
    (hRead : readFraction cs = .ok (fraction, after)) :
    readFraction (cs ++ rest) = .ok (fraction, after ++ rest) := by
  unfold readFraction at hRead ⊢
  rw [hStops.head?_append (by decide)]
  by_cases hPoint : (cs.head? == some '.') = true
  · rw [if_pos hPoint] at hRead ⊢
    obtain ⟨⟨ds, after'⟩, hDigits, hReturn⟩ := bind_eq_ok.mp hRead
    cases hReturn
    rw [drop_append_of_ne_nil (ne_nil_of_head? hPoint), readDigits_append hStops hDigits]
    rfl
  · rw [if_neg hPoint] at hRead ⊢
    cases hRead
    rfl

theorem readExponent_append {exponent : Option (Bool × List Char)}
    (hRead : readExponent cs = .ok (exponent, after)) :
    readExponent (cs ++ rest) = .ok (exponent, after ++ rest) := by
  unfold readExponent at hRead ⊢
  rw [hStops.head?_append (by decide), hStops.head?_append (by decide)]
  by_cases hLetter : (cs.head? == some 'e' || cs.head? == some 'E') = true
  case neg =>
    rw [if_neg hLetter] at hRead ⊢
    cases hRead
    rfl
  have hcs : cs ≠ [] := by
    rcases Bool.or_eq_true_iff.mp hLetter with h | h <;> exact ne_nil_of_head? h
  have hSign : (if (cs.drop 1).head? == some '-' || (cs.drop 1).head? == some '+' then
      (cs.drop 1 ++ rest).drop 1 else cs.drop 1 ++ rest) =
      (if (cs.drop 1).head? == some '-' || (cs.drop 1).head? == some '+' then (cs.drop 1).drop 1
        else cs.drop 1) ++ rest := by
    split
    case isTrue hSigned =>
      refine drop_append_of_ne_nil ?_ rest
      rcases Bool.or_eq_true_iff.mp hSigned with h | h <;> exact ne_nil_of_head? h
    case isFalse => rfl
  rw [if_pos hLetter] at hRead ⊢
  obtain ⟨⟨ds, after'⟩, hDigits, hReturn⟩ := bind_eq_ok.mp hRead
  cases hReturn
  simp only [drop_append_of_ne_nil hcs, hStops.head?_append (c := '-') (by decide),
    hStops.head?_append (c := '+') (by decide), hSign, readDigits_append hStops hDigits]
  rfl

theorem readNumeral_append {n : Numeral} (hRead : readNumeral cs = .ok (n, after)) :
    readNumeral (cs ++ rest) = .ok (n, after ++ rest) := by
  have hSign : (if cs.head? == some '-' then (cs ++ rest).drop 1 else cs ++ rest) =
      (if cs.head? == some '-' then cs.drop 1 else cs) ++ rest := by
    split
    case isTrue hNegative => exact drop_append_of_ne_nil (ne_nil_of_head? hNegative) rest
    case isFalse => rfl
  unfold readNumeral at hRead ⊢
  obtain ⟨⟨whole, cs₁⟩, hWhole, hRead⟩ := bind_eq_ok.mp hRead
  rw [hStops.head?_append (by decide)]
  refine bind_eq_ok.mpr ⟨(whole, cs₁ ++ rest), by rw [hSign, readDigits_append hStops hWhole], ?_⟩
  dsimp only at hRead ⊢
  split at hRead
  case isTrue =>
    obtain ⟨_, hThrow, _⟩ := bind_eq_ok.mp hRead
    cases hThrow
  case isFalse hZero =>
    obtain ⟨⟨fraction, cs₂⟩, hFraction, hRead⟩ := bind_eq_ok.mp hRead
    obtain ⟨⟨exponent, cs₃⟩, hExponent, hRead⟩ := bind_eq_ok.mp hRead
    cases hRead
    rw [if_neg hZero]
    exact bind_eq_ok.mpr ⟨_, readFraction_append hStops hFraction,
      bind_eq_ok.mpr ⟨_, readExponent_append hStops hExponent, rfl⟩⟩

end Append

/-! ## Values -/

/-- One value is read, and what is left behind it but for blanks is `rest`. -/
def Reads (fuel : Nat) (cs : List Char) (d : Draft) (rest : List Char) : Prop :=
  ∃ after, readValue fuel cs = (d, some after) ∧ skipBlanks after = rest

theorem skipBlanks_append {c : Char} {cs cs' : List Char} (hSkip : skipBlanks cs = c :: cs')
    (rest : List Char) : skipBlanks (cs ++ rest) = c :: (cs' ++ rest) := by
  induction cs with
  | nil => cases hSkip
  | cons d cs ih =>
    simp only [skipBlanks, List.cons_append, List.dropWhile_cons] at hSkip ih ⊢
    split at hSkip
    case isTrue hBlank => rw [if_pos hBlank, ih hSkip]
    case isFalse hBlank =>
      cases hSkip
      rw [if_neg hBlank]

theorem skipBlanks_append_nil {cs : List Char} (hSkip : skipBlanks cs = []) (rest : List Char) :
    skipBlanks (cs ++ rest) = skipBlanks rest := by
  induction cs with
  | nil => rfl
  | cons d cs ih =>
    simp only [skipBlanks, List.cons_append, List.dropWhile_cons] at hSkip ih ⊢
    split at hSkip
    case isTrue hBlank => rw [if_pos hBlank, ih hSkip]
    case isFalse => cases hSkip

theorem Stops.skipBlanks {rest : List Char} (h : Stops rest) : skipBlanks rest = rest := by
  cases rest with
  | nil => rfl
  | cons c rest =>
    have hBlank : isBlank c = false := by
      rcases h c rfl with rfl | rfl | rfl <;> decide
    simp [Json.skipBlanks, hBlank]

theorem skipBlanks_idem (cs : List Char) : skipBlanks (skipBlanks cs) = skipBlanks cs := by
  induction cs with
  | nil => rfl
  | cons c cs ih =>
    simp only [skipBlanks, List.dropWhile_cons] at ih ⊢
    split
    case isTrue => exact ih
    case isFalse hBlank => rw [List.dropWhile_cons, if_neg hBlank]

theorem readValue_skipBlanks (fuel : Nat) (cs : List Char) :
    readValue fuel (skipBlanks cs) = readValue fuel cs := by
  cases fuel with
  | zero => rfl
  | succ fuel => simp only [readValue, skipBlanks_idem]

theorem readValue_numeral {fuel : Nat} {c : Char} {cs cs' : List Char}
    (hSkip : skipBlanks cs = c :: cs') (hFirst : (c == '-' || isDigit c) = true) :
    readValue (fuel + 1) cs =
      match readNumeral (c :: cs') with
      | .ok (n, rest) => (n.toDraft, some rest)
      | .error flaw => (.broken flaw, none) := by
  rw [readValue, hSkip]
  split
  case h_1 h => cases h
  case h_8 h =>
    cases h
    exact if_pos hFirst
  all_goals
    rename_i h
    cases h
    cases hFirst

theorem readWord_self (value : Draft) (ws rest : List Char) :
    readWord value ws (ws ++ rest) = (value, some rest) := by
  induction ws with
  | nil => rfl
  | cons w ws ih => simp [readWord, ih]

theorem readWord_cases (value : Draft) (ws cs : List Char) :
    (readWord value ws cs).1 = value ∨ ∃ flaw, (readWord value ws cs).1 = .broken flaw := by
  fun_induction readWord value ws cs with
  | case1 => exact Or.inl rfl
  | case2 | case4 => exact Or.inr ⟨_, rfl⟩
  | case3 => assumption

def Draft.IsNumber : Draft → Prop
  | integer _ | real _ => True
  | _ => False

theorem numeral_of_readValue {fuel : Nat} {cs after : List Char} {d : Draft} (hd : d.IsNumber)
    (hRead : readValue fuel cs = (d, some after)) :
    ∃ c cs' n, skipBlanks cs = c :: cs' ∧ (c == '-' || isDigit c) = true ∧
      readNumeral (c :: cs') = .ok (n, after) ∧ n.toDraft = d := by
  have hWord : ∀ {value : Draft} {ws cs : List Char}, ¬ value.IsNumber →
      readWord value ws cs ≠ (d, some after) := by
    intro value ws cs hValue hWord
    rcases readWord_cases value ws cs with h | ⟨flaw, h⟩ <;> rw [hWord] at h <;> subst h
    · exact hValue hd
    · exact hd
  cases fuel with
  | zero => cases hRead
  | succ fuel =>
    rw [readValue] at hRead
    split at hRead
    case h_1 => cases hRead
    case h_2 | h_3 | h_4 => exact absurd hRead (hWord fun h => h)
    case h_5 =>
      split at hRead <;> cases hRead
      exact hd.elim
    case h_6 | h_7 =>
      split at hRead <;> (obtain rfl := congrArg Prod.fst hRead; exact hd.elim)
    case h_8 c cs' _ _ _ _ _ _ hSkip =>
      split at hRead
      case isTrue hFirst =>
        split at hRead
        case h_1 n rest hNumeral =>
          cases hRead
          exact ⟨c, cs', n, hSkip, hFirst, hNumeral, rfl⟩
        case h_2 => cases hRead
      case isFalse => cases hRead

theorem reads_number {fuel fuel' : Nat} {cs rest : List Char} {d : Draft} (hd : d.IsNumber)
    (hStops : Stops rest) (hReads : Reads fuel cs d []) :
    Reads (fuel' + 1) (cs ++ rest) d rest := by
  obtain ⟨after, hRead, hAfter⟩ := hReads
  obtain ⟨c, cs', n, hSkip, hFirst, hNumeral, rfl⟩ := numeral_of_readValue hd hRead
  have hAppend := readNumeral_append hStops hNumeral
  refine ⟨after ++ rest, ?_, ?_⟩
  · rw [readValue_numeral (skipBlanks_append hSkip rest) hFirst]
    rw [List.cons_append] at hAppend
    rw [hAppend]
  · rw [skipBlanks_append_nil hAfter, hStops.skipBlanks]

/-! ## Documents -/

def ReadsBack (j : Json) : Prop := parse 0 j.compactText = .ok j

mutual

/-- All numbers in a document read back. What is not finite is no number in the text. -/
def Legible : Json → Prop
  | integer n => (integer n).ReadsBack
  | real x => x.isFinite = true → (real x).ReadsBack
  | array items => LegibleItems items
  | object members => LegibleMembers members
  | _ => True

def LegibleItems : List Json → Prop
  | [] => True
  | j :: js => j.Legible ∧ LegibleItems js

def LegibleMembers : List (String × Json) → Prop
  | [] => True
  | (_, j) :: ms => j.Legible ∧ LegibleMembers ms

end

mutual

def draft : Json → Draft
  | null => .null
  | bool b => .bool b
  | integer n => .integer n
  | real x => if x.isFinite then .real x else .null
  | string s => .string (.ok s)
  | array items => .array (draftItems items) none
  | object members => .object (draftMembers members) none

def draftItems : List Json → List Draft
  | [] => []
  | j :: js => j.draft :: draftItems js

def draftMembers : List (String × Json) → List (Except Cause String × Draft)
  | [] => []
  | (k, j) :: ms => (.ok k, j.draft) :: draftMembers ms

end

mutual

def weight : Json → Nat
  | array items => weightItems items + 1
  | object members => weightMembers members + 1
  | _ => 1

def weightItems : List Json → Nat
  | [] => 0
  | j :: js => j.weight + weightItems js + 1

def weightMembers : List (String × Json) → Nat
  | [] => 0
  | (_, j) :: ms => j.weight + weightMembers ms + 1

end

theorem legibleItems_iff {items : List Json} : LegibleItems items ↔ ∀ j ∈ items, j.Legible := by
  induction items with
  | nil => simp [LegibleItems]
  | cons j items ih => simp [LegibleItems, ih]

theorem legibleMembers_iff {members : List (String × Json)} :
    LegibleMembers members ↔ ∀ m ∈ members, m.2.Legible := by
  induction members with
  | nil => simp [LegibleMembers]
  | cons m members ih => simp [LegibleMembers, ih]

theorem draft_of_load {j : Json} {d : Draft} (hNumber : j.draft.IsNumber)
    (hLoad : d.load 0 = .ok j) : d = j.draft := by
  cases d with
  | null | bool | integer =>
    cases hLoad
    rfl
  | real x =>
    cases hLoad
    rw [draft] at hNumber ⊢
    split at hNumber
    case isTrue hFinite => rw [if_pos hFinite]
    case isFalse => exact hNumber.elim
  | string =>
    obtain ⟨_, -, hReturn⟩ := bind_eq_ok.mp hLoad
    cases hReturn
    exact hNumber.elim
  | beyond | array | object | broken => cases hLoad

theorem ReadsBack.reads {j : Json} (hBack : j.ReadsBack) (hNumber : j.draft.IsNumber)
    {rest : List Char} (hStops : Stops rest) (fuel : Nat) :
    Reads (fuel + 1) (j.compact [] ++ rest) j.draft rest := by
  unfold ReadsBack parse Draft.parse Draft.ofText at hBack
  rw [compactText, String.toList_ofList] at hBack
  rcases hRead : readValue (2 * (j.compact []).length + 2) (j.compact []) with ⟨d, after⟩
  simp only [hRead] at hBack
  obtain ⟨j', hLoad, hEnd⟩ := bind_eq_ok.mp hBack
  split at hEnd
  case isTrue hAfter =>
    cases hEnd
    rw [draft_of_load hNumber hLoad] at hRead
    cases after with
    | none => cases hAfter
    | some after =>
      refine reads_number hNumber hStops ⟨after, hRead, ?_⟩
      simpa using hAfter
  case isFalse => cases hEnd

theorem Reads.of_eq {fuel : Nat} {cs rest : List Char} {d : Draft}
    (hRead : readValue fuel cs = (d, some rest)) (hStops : Stops rest) : Reads fuel cs d rest :=
  ⟨rest, hRead, hStops.skipBlanks⟩

theorem Reads.starts {fuel : Nat} {cs rest : List Char} {d : Draft} (h : Reads fuel cs d rest) :
    ∃ c cs', skipBlanks cs = c :: cs' ∧ c ≠ ']' := by
  obtain ⟨after, hRead, -⟩ := h
  cases fuel with
  | zero => cases hRead
  | succ fuel =>
    rw [readValue] at hRead
    cases hSkip : skipBlanks cs with
    | nil =>
      rw [hSkip] at hRead
      cases hRead
    | cons c cs' =>
      refine ⟨c, cs', rfl, ?_⟩
      rintro rfl
      rw [hSkip] at hRead
      cases hRead

/-- The text of a document is read, whatever may follow it. -/
def Readable (j : Json) : Prop :=
  ∀ fuel rest, j.weight ≤ fuel → Stops rest → Reads fuel (j.compact rest) j.draft rest

theorem readItems_skipBlanks (fuel : Nat) (cs : List Char) :
    readItems fuel (skipBlanks cs) = readItems fuel cs := by
  cases fuel with
  | zero => rfl
  | succ fuel => simp only [readItems, readValue_skipBlanks]

theorem stops_compactItems (js : List Json) (rest : List Char) :
    Stops (compactItems js (']' :: rest)) := by
  cases js with
  | nil => exact stops_cons (by simp) _
  | cons => exact stops_cons (by simp) _

theorem stops_compactMembers (ms : List (String × Json)) (rest : List Char) :
    Stops (compactMembers ms ('}' :: rest)) := by
  cases ms with
  | nil => exact stops_cons (by simp) _
  | cons => exact stops_cons (by simp) _

theorem readItems_compact {js : List Json} (hItems : ∀ j ∈ js, j.Readable) :
    ∀ (j : Json) (fuel : Nat) (rest : List Char), j.Readable →
      j.weight + weightItems js + 1 ≤ fuel →
        readItems fuel (j.compact (compactItems js (']' :: rest))) =
          (j.draft :: draftItems js, none, some rest) := by
  induction js with
  | nil =>
    intro j fuel rest hFirst hFuel
    cases fuel with
    | zero => omega
    | succ fuel =>
      obtain ⟨after, hRead, hAfter⟩ := hFirst fuel (compactItems [] (']' :: rest))
        (by rw [weightItems] at hFuel; omega) (stops_compactItems [] rest)
      rw [readItems, hRead]
      simp only [hAfter, compactItems, draftItems]
  | cons j' js ih =>
    intro j fuel rest hFirst hFuel
    cases fuel with
    | zero => omega
    | succ fuel =>
      rw [weightItems] at hFuel
      obtain ⟨after, hRead, hAfter⟩ := hFirst fuel (compactItems (j' :: js) (']' :: rest))
        (by omega) (stops_compactItems _ rest)
      have hRest := ih (fun j hj => hItems j (List.mem_cons_of_mem j' hj)) j' fuel rest
        (hItems j' List.mem_cons_self) (by omega)
      rw [readItems, hRead]
      simp only [hAfter, compactItems, hRest, draftItems]

theorem quoted_eq (s : String) (rest : List Char) :
    quoted s rest = '"' :: inside s.toList rest := rfl

theorem skipBlanks_quote (cs : List Char) : skipBlanks ('"' :: cs) = '"' :: cs := rfl

theorem skipBlanks_colon (cs : List Char) : skipBlanks (':' :: cs) = ':' :: cs := rfl

section Member

variable {fuel : Nat} {k : String} {cs after rest : List Char} {d : Draft}
  (hRead : readValue fuel cs = (d, some after))
include hRead

theorem readMembers_last (hAfter : skipBlanks after = '}' :: rest) :
    readMembers (fuel + 1) (quoted k (':' :: cs)) = ([(.ok k, d)], none, some rest) := by
  rw [readMembers, quoted_eq]
  simp only [skipBlanks_quote, stringAt_inside, skipBlanks_colon, hRead, hAfter]

theorem readMembers_next {next : List Char} {members : List (Except Cause String × Draft)}
    (hAfter : skipBlanks after = ',' :: next)
    (hMembers : readMembers fuel next = (members, none, some rest)) :
    readMembers (fuel + 1) (quoted k (':' :: cs)) = ((.ok k, d) :: members, none, some rest) := by
  rw [readMembers, quoted_eq]
  simp only [skipBlanks_quote, stringAt_inside, skipBlanks_colon, hRead, hAfter, hMembers,
    Option.map_none]

end Member

theorem readMembers_compact {ms : List (String × Json)} (hMembers : ∀ m ∈ ms, m.2.Readable) :
    ∀ (k : String) (j : Json) (fuel : Nat) (rest : List Char), j.Readable →
      j.weight + weightMembers ms + 1 ≤ fuel →
        readMembers fuel (quoted k (':' :: j.compact (compactMembers ms ('}' :: rest)))) =
          ((.ok k, j.draft) :: draftMembers ms, none, some rest) := by
  induction ms with
  | nil =>
    intro k j fuel rest hFirst hFuel
    cases fuel with
    | zero => omega
    | succ fuel =>
      obtain ⟨after, hRead, hAfter⟩ := hFirst fuel (compactMembers [] ('}' :: rest))
        (by rw [weightMembers] at hFuel; omega) (stops_compactMembers [] rest)
      exact readMembers_last hRead hAfter
  | cons m ms ih =>
    obtain ⟨k', j'⟩ := m
    intro k j fuel rest hFirst hFuel
    cases fuel with
    | zero => omega
    | succ fuel =>
      rw [weightMembers] at hFuel
      obtain ⟨after, hRead, hAfter⟩ := hFirst fuel (compactMembers ((k', j') :: ms) ('}' :: rest))
        (by omega) (stops_compactMembers _ rest)
      have hRest := ih (fun m hm => hMembers m (List.mem_cons_of_mem _ hm)) k' j' fuel rest
        (hMembers _ List.mem_cons_self) (by omega)
      exact readMembers_next hRead hAfter hRest

theorem readable_array {items : List Json} (hItems : ∀ j ∈ items, j.Readable) :
    (array items).Readable := by
  intro fuel rest hFuel hStops
  cases fuel with
  | zero => simp [weight] at hFuel
  | succ fuel =>
    refine Reads.of_eq ?_ hStops
    have hOpen : ∀ cs, skipBlanks ('[' :: cs) = '[' :: cs := fun _ => rfl
    have hClose : ∀ cs, skipBlanks (']' :: cs) = ']' :: cs := fun _ => rfl
    cases items with
    | nil => simp only [compact, readValue, hOpen, hClose, draft, draftItems]
    | cons j js =>
      rw [weight, weightItems] at hFuel
      have hFirst := hItems j List.mem_cons_self
      have hRead := readItems_compact (fun j hj => hItems j (List.mem_cons_of_mem _ hj)) j fuel rest
        hFirst (by omega)
      obtain ⟨c, cs', hSkip, hBracket⟩ := (hFirst fuel (compactItems js (']' :: rest)) (by omega)
        (stops_compactItems js rest)).starts
      rw [← readItems_skipBlanks, hSkip] at hRead
      simp only [compact, readValue, hOpen, hSkip]
      split
      case h_1 h => cases h
      case h_2 h =>
        cases h
        exact absurd rfl hBracket
      case h_3 => simp only [hRead, draft, draftItems]

theorem readable_object {members : List (String × Json)} (hMembers : ∀ m ∈ members, m.2.Readable) :
    (object members).Readable := by
  intro fuel rest hFuel hStops
  cases fuel with
  | zero => simp [weight] at hFuel
  | succ fuel =>
    refine Reads.of_eq ?_ hStops
    have hOpen : ∀ cs, skipBlanks ('{' :: cs) = '{' :: cs := fun _ => rfl
    have hClose : ∀ cs, skipBlanks ('}' :: cs) = '}' :: cs := fun _ => rfl
    cases members with
    | nil => simp only [compact, readValue, hOpen, hClose, draft, draftMembers]
    | cons m ms =>
      obtain ⟨k, j⟩ := m
      rw [weight, weightMembers] at hFuel
      have hRead := readMembers_compact (fun m hm => hMembers m (List.mem_cons_of_mem _ hm)) k j
        fuel rest (hMembers _ List.mem_cons_self) (by omega)
      rw [quoted_eq] at hRead
      simp only [compact, readValue, hOpen, quoted_eq, skipBlanks_quote]
      split
      case h_1 h => cases h
      case h_2 h => cases h
      case h_3 => simp only [hRead, draft, draftMembers]

theorem ReadsBack.readable {j : Json} (hBack : j.ReadsBack) (hNumber : j.draft.IsNumber)
    (hWeight : j.weight = 1) (hCompact : ∀ rest, j.compact rest = j.compact [] ++ rest) :
    j.Readable := by
  intro fuel rest hFuel hStops
  cases fuel with
  | zero => omega
  | succ fuel =>
    rw [hCompact]
    exact hBack.reads hNumber hStops fuel

theorem readable_word {j : Json} (c : Char) (ws : List Char) (hWeight : j.weight = 1)
    (hCompact : ∀ rest, j.compact rest = c :: (ws ++ rest))
    (hRead : ∀ fuel rest,
      readValue (fuel + 1) (c :: (ws ++ rest)) = readWord j.draft ws (ws ++ rest)) :
    j.Readable := by
  intro fuel rest hFuel hStops
  cases fuel with
  | zero => omega
  | succ fuel =>
    rw [hCompact]
    exact Reads.of_eq ((hRead fuel rest).trans (readWord_self _ _ _)) hStops

/-- Every document with numbers that read back is read wherever it stands. -/
theorem Legible.readable {j : Json} (hLegible : j.Legible) : j.Readable := by
  induction j using Json.induct with
  | null =>
    exact readable_word 'n' ['u', 'l', 'l'] rfl (fun _ => rfl) fun _ _ => rfl
  | bool b =>
    cases b with
    | false =>
      exact readable_word 'f' ['a', 'l', 's', 'e'] rfl (fun _ => rfl) fun _ _ => rfl
    | true =>
      exact readable_word 't' ['r', 'u', 'e'] rfl (fun _ => rfl) fun _ _ => rfl
  | integer n => exact ReadsBack.readable hLegible trivial rfl fun rest => by simp [compact]
  | real x =>
    cases hFinite : x.isFinite with
    | true =>
      have hNumber : (real x).draft.IsNumber := by
        rw [draft, if_pos hFinite]
        trivial
      exact ReadsBack.readable (hLegible hFinite) hNumber rfl fun rest => by simp [compact]
    | false =>
      have hDraft : (real x).draft = .null := by rw [draft, hFinite]; rfl
      refine readable_word 'n' ['u', 'l', 'l'] rfl (fun rest => ?_) fun _ _ => ?_
      · cases x with
        | nan | infinite => rfl
        | finite => cases hFinite
      · rw [hDraft]
        rfl
  | string s =>
    intro fuel rest hFuel hStops
    cases fuel with
    | zero => simp [weight] at hFuel
    | succ fuel =>
      refine Reads.of_eq ?_ hStops
      simp only [compact, quoted_eq, readValue, skipBlanks_quote, stringAt_inside, draft]
  | array items ih => exact readable_array fun j hj => ih j hj (legibleItems_iff.mp hLegible j hj)
  | object members ih =>
    exact readable_object fun m hm => ih m hm (legibleMembers_iff.mp hLegible m hm)

theorem weightItems_le {js : List Json}
    (hItems : ∀ j ∈ js, ∀ rest, j.weight + 2 * rest.length ≤ 2 * (j.compact rest).length + 1)
    (rest : List Char) :
    weightItems js + 2 * rest.length ≤ 2 * (compactItems js rest).length := by
  induction js with
  | nil => simp [weightItems, compactItems]
  | cons j js ih =>
    have hFirst := hItems j List.mem_cons_self (compactItems js rest)
    have hRest := ih fun j hj => hItems j (List.mem_cons_of_mem _ hj)
    simp only [weightItems, compactItems, List.length_cons]
    omega

theorem weightMembers_le {ms : List (String × Json)}
    (hMembers : ∀ m ∈ ms, ∀ rest, m.2.weight + 2 * rest.length ≤ 2 * (m.2.compact rest).length + 1)
    (rest : List Char) :
    weightMembers ms + 2 * rest.length ≤ 2 * (compactMembers ms rest).length := by
  induction ms with
  | nil => simp [weightMembers, compactMembers]
  | cons m ms ih =>
    obtain ⟨k, j⟩ := m
    have hFirst := hMembers (k, j) List.mem_cons_self (compactMembers ms rest)
    have hRest := ih fun m hm => hMembers m (List.mem_cons_of_mem _ hm)
    have hKey := length_inside k.toList (':' :: j.compact (compactMembers ms rest))
    simp only [weightMembers, compactMembers, quoted_eq, List.length_cons] at hFirst hKey ⊢
    omega

theorem weight_le (j : Json) (rest : List Char) :
    j.weight + 2 * rest.length ≤ 2 * (j.compact rest).length + 1 := by
  induction j using Json.induct generalizing rest with
  | null | integer | real =>
    simp only [weight, compact, List.length_append]
    omega
  | bool b =>
    cases b <;> (simp only [weight, compact, List.length_append]; omega)
  | string s =>
    have hText := length_inside s.toList rest
    simp only [weight, compact, quoted_eq, List.length_cons]
    omega
  | array items ih =>
    cases items with
    | nil =>
      simp only [weight, weightItems, compact, List.length_cons]
      omega
    | cons j js =>
      have hFirst := ih j List.mem_cons_self (compactItems js (']' :: rest))
      have hRest := weightItems_le (fun j hj => ih j (List.mem_cons_of_mem _ hj)) (']' :: rest)
      simp only [weight, weightItems, compact, List.length_cons] at hRest ⊢
      omega
  | object members ih =>
    cases members with
    | nil =>
      simp only [weight, weightMembers, compact, List.length_cons]
      omega
    | cons m ms =>
      obtain ⟨k, j⟩ := m
      have hFirst := ih (k, j) List.mem_cons_self (compactMembers ms ('}' :: rest))
      have hRest := weightMembers_le (fun m hm => ih m (List.mem_cons_of_mem _ hm)) ('}' :: rest)
      have hKey := length_inside k.toList (':' :: j.compact (compactMembers ms ('}' :: rest)))
      simp only [weight, weightMembers, compact, quoted_eq, List.length_cons] at hFirst hRest hKey ⊢
      omega

/-- What is found in the text of a document is the document, to the end of the text. -/
theorem Legible.ofText {j : Json} (hLegible : j.Legible) :
    Draft.ofText j.compactText = (j.draft, some []) := by
  have hWeight := j.weight_le []
  obtain ⟨after, hRead, hAfter⟩ := hLegible.readable (2 * (j.compact []).length + 2) []
    (by simp only [List.length_nil] at hWeight; omega) stops_nil
  rw [Draft.ofText, compactText, String.toList_ofList, hRead]
  simp only [Option.map_some, hAfter]

end Interlace.Json
