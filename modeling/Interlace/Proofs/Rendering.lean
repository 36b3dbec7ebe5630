import Interlace.Console
import Interlace.Proofs.Quoting

/-!
# Settings that are written are read back

The text of settings is read line by line: two headers, each with one entry. A limit that is an
integer of the text is read as itself, and so is any filter. What was read is then laid over the
defaults, all of which it replaces.
-/

namespace Interlace

/-! ## Natural numbers -/

namespace Text

theorem isDigit_of_mem_toDigits {n : Nat} {c : Char} (hc : c ∈ Nat.toDigits 10 n) :
    isDigit c = true := by
  have hDigit := Nat.isDigit_of_mem_toDigits (by decide) (Nat.le_refl 10) hc
  simpa [Char.isDigit, isDigit, Char.le_def] using hDigit

theorem naturalOf_toDigits (n : Nat) : naturalOf (Nat.toDigits 10 n) = n := by
  have hRead : Nat.ofDigitChars 10 (Nat.toDigits 10 n) 0 = n := Nat.ofDigitChars_ten_toDigits
  rw [Nat.ofDigitChars_eq_foldl] at hRead
  simpa [naturalOf, Nat.mul_comm] using hRead

theorem head?_toDigits {n : Nat} (hn : 0 < n) : (Nat.toDigits 10 n).head? ≠ some '0' := by
  induction n using Nat.strongRecOn with
  | ind n ih =>
    rw [Nat.toDigits_eq_if (by decide)]
    split
    case isTrue hSmall => simpa using Nat.ne_of_gt hn
    case isFalse hLarge =>
      have hRest := ih (n / 10) (Nat.div_lt_self hn (by decide)) (by omega)
      cases hDigits : Nat.toDigits 10 (n / 10) with
      | nil => exact absurd hDigits Nat.toDigits_ne_nil
      | cons c cs => rwa [hDigits] at hRest

theorem ne_of_class {p : Char → Bool} {c d : Char} (hc : p c = true) (hd : p d = false) :
    c ≠ d := by
  rintro rfl
  rw [hc] at hd
  cases hd

end Text

namespace Toml

open Text

namespace Scalar

theorem digits?_of_all {ds : List Char} (hDigits : ∀ c ∈ ds, isDigit c = true) (hne : ds ≠ []) :
    digits? isDigit ds = some ds := by
  induction ds with
  | nil => exact absurd rfl hne
  | cons c ds ih =>
    have hc := hDigits c List.mem_cons_self
    cases ds with
    | nil => simp [digits?, hc]
    | cons d ds =>
      have hd := hDigits d (by simp)
      have hUnderscore : d ≠ '_' := ne_of_class hd rfl
      rw [digits?]
      · rw [ih (fun c' hc' => hDigits c' (List.mem_cons_of_mem c hc')) (by simp)]
        simp [hc]
      · rintro rest' ⟨rfl, -⟩
        exact hUnderscore rfl

theorem toDigits_cons (n : Nat) : ∃ c ds, Nat.toDigits 10 n = c :: ds ∧ isDigit c = true ∧
    (∀ d ∈ ds, isDigit d = true) ∧ (c = '0' → ds = []) := by
  cases hDigits : Nat.toDigits 10 n with
  | nil => exact absurd hDigits Nat.toDigits_ne_nil
  | cons c ds =>
    have hAll : ∀ d ∈ c :: ds, isDigit d = true := by
      rw [← hDigits]
      exact fun d hd => isDigit_of_mem_toDigits hd
    refine ⟨c, ds, rfl, hAll c List.mem_cons_self,
      fun d hd => hAll d (List.mem_cons_of_mem c hd), ?_⟩
    rintro rfl
    rcases Nat.eq_zero_or_pos n with rfl | hn
    · rw [Nat.toDigits_zero] at hDigits
      exact (List.cons.inj hDigits).2.symm
    · exact absurd (by rw [hDigits]; rfl) (head?_toDigits hn)

theorem whole?_toDigits (n : Nat) : whole? (Nat.toDigits 10 n) = some (Nat.toDigits 10 n) := by
  obtain ⟨c, ds, hDigits, hc, hds, hZero⟩ := toDigits_cons n
  have hRead : digits? isDigit (Nat.toDigits 10 n) = some (Nat.toDigits 10 n) :=
    digits?_of_all (fun _ => isDigit_of_mem_toDigits) Nat.toDigits_ne_nil
  rw [hDigits] at hRead ⊢
  rw [whole?]
  · exact hRead
  · rintro d rest hEq
    obtain ⟨rfl, rfl⟩ := List.cons.inj hEq
    cases hZero rfl

theorem takeSign_toDigits (n : Nat) :
    takeSign (Nat.toDigits 10 n) = (false, Nat.toDigits 10 n) := by
  obtain ⟨c, ds, hDigits, hc, -⟩ := toDigits_cons n
  have hMinus : c ≠ '-' := ne_of_class hc rfl
  have hPlus : c ≠ '+' := ne_of_class hc rfl
  rw [hDigits]
  simp [takeSign, hMinus, hPlus]

theorem integer?_toDigits {n : Nat} (hn : n < 2 ^ 63) :
    integer? (Nat.toDigits 10 n) = some (n : Int) := by
  have hBounded : bounded? (n : Int) = some (n : Int) := by
    rw [bounded?, if_pos (by omega)]
  obtain ⟨c, ds, hDigits, -, hds, -⟩ := toDigits_cons n
  have hSecond : ∀ d rest, ds = d :: rest → d ≠ 'x' ∧ d ≠ 'o' ∧ d ≠ 'b' := by
    rintro d rest rfl
    have hd := hds d List.mem_cons_self
    exact ⟨ne_of_class hd rfl, ne_of_class hd rfl, ne_of_class hd rfl⟩
  rw [integer?.eq_def]
  split
  case h_1 hEq | h_2 hEq | h_3 hEq =>
    rw [hDigits] at hEq
    have hNot := hSecond _ _ (List.cons.inj hEq).2
    simp at hNot
  case h_4 =>
    rw [takeSign_toDigits]
    simp only [bind, Option.bind, whole?_toDigits, naturalOf_toDigits, Number.signed]
    exact hBounded

theorem ofWord?_toDigits {n : Nat} (hn : n < 2 ^ 63) :
    ofWord? (Nat.toDigits 10 n) = some (.integer n) := by
  obtain ⟨c, ds, hDigits, hc, -⟩ := toDigits_cons n
  have hTrue : c ≠ 't' := ne_of_class hc rfl
  have hFalse : c ≠ 'f' := ne_of_class hc rfl
  have hNotTrue : Nat.toDigits 10 n ≠ ['t', 'r', 'u', 'e'] := by simp [hDigits, hTrue]
  have hNotFalse : Nat.toDigits 10 n ≠ ['f', 'a', 'l', 's', 'e'] := by simp [hDigits, hFalse]
  rw [ofWord?, if_neg hNotTrue, if_neg hNotFalse, integer?_toDigits hn]

theorem read?_toDigits {n : Nat} (hn : n < 2 ^ 63) (rest : List Char) :
    read? (Nat.toDigits 10 n ++ '\n' :: rest) = some (.integer n, '\n' :: rest) := by
  have hWord : ∀ c ∈ Nat.toDigits 10 n, isWordChar c = true := by
    intro c hc
    have hDigit := Nat.isDigit_of_mem_toDigits (by decide) (Nat.le_refl 10) hc
    simp [isWordChar, Char.isAlphanum, hDigit]
  have hCut : cut (Nat.toDigits 10 n ++ '\n' :: rest) = (Nat.toDigits 10 n, '\n' :: rest) := by
    have hStop : isWordChar '\n' = false := by decide
    simp [cut, List.takeWhile_append_of_pos hWord, List.dropWhile_append_of_pos hWord, hStop]
  rw [read?, hCut]
  simp [ofWord?_toDigits hn]

end Scalar

/-! ## Values -/

theorem value?_simple {c : Char} (hBracket : c ≠ '[') (hBrace : c ≠ '{') (levels : Nat)
    (cs : List Char) : value? levels (c :: cs) = simple? (c :: cs) := by
  cases levels <;> simp [value?, hBracket, hBrace]

theorem value?_toDigits {n : Nat} (hn : n < 2 ^ 63) (levels : Nat) (rest : List Char) :
    value? levels (Nat.toDigits 10 n ++ '\n' :: rest) = some (.integer n, '\n' :: rest) := by
  have hScalar := Scalar.read?_toDigits hn rest
  obtain ⟨c, ds, hDigits, hc, -⟩ := Scalar.toDigits_cons n
  have hQuoted : Quoted.read? (Nat.toDigits 10 n ++ '\n' :: rest) = none := by
    have hDouble : c ≠ '"' := ne_of_class hc rfl
    have hSingle : c ≠ '\'' := ne_of_class hc rfl
    simp [hDigits, Quoted.read?, Quoted.readShort?, hDouble, hSingle]
  rw [hDigits, List.cons_append] at hScalar hQuoted ⊢
  rw [value?_simple (ne_of_class hc rfl) (ne_of_class hc rfl), simple?, hQuoted]
  exact hScalar

theorem head_write (cs : List Char) :
    ∃ q ds, Quoted.write cs = q :: ds ∧ (q = '"' ∨ q = '\'') := by
  rw [Quoted.write]
  cases Quoted.way cs with
  | basic | longBasic => exact ⟨_, _, rfl, .inl rfl⟩
  | literal | longLiteral => exact ⟨_, _, rfl, .inr rfl⟩

theorem value?_write (levels : Nat) (cs rest : List Char) :
    value? levels (Quoted.write cs ++ '\n' :: rest) =
      some (.string (String.ofList cs), '\n' :: rest) := by
  have hRead : Quoted.read? (Quoted.write cs ++ '\n' :: rest) = some (cs, '\n' :: rest) :=
    Quoted.read?_write cs (by simp)
  obtain ⟨q, ds, hWritten, hQuote⟩ := head_write cs
  rw [hWritten, List.cons_append] at hRead ⊢
  rw [value?_simple (by rcases hQuote with rfl | rfl <;> decide)
    (by rcases hQuote with rfl | rfl <;> decide), simple?, hRead]

theorem not_isBlank_of_class {p : Char → Bool} {c : Char} (hc : p c = true)
    (hBlanks : p ' ' = false ∧ p '\t' = false) : Quoted.isBlank c = false := by
  have hSpace : c ≠ ' ' := ne_of_class hc hBlanks.1
  have hTab : c ≠ '\t' := ne_of_class hc hBlanks.2
  simp [Quoted.isBlank, hSpace, hTab]

theorem skipBlanks_cons {c : Char} (hBlank : Quoted.isBlank c = false) (cs : List Char) :
    skipBlanks (c :: cs) = c :: cs := by
  simp [skipBlanks, hBlank]

theorem skipBlanks_toDigits (n : Nat) (rest : List Char) :
    skipBlanks (Nat.toDigits 10 n ++ rest) = Nat.toDigits 10 n ++ rest := by
  obtain ⟨c, ds, hDigits, hc, -⟩ := Scalar.toDigits_cons n
  rw [hDigits, List.cons_append]
  exact skipBlanks_cons (not_isBlank_of_class hc ⟨rfl, rfl⟩) _

theorem skipBlanks_write (cs rest : List Char) :
    skipBlanks (Quoted.write cs ++ rest) = Quoted.write cs ++ rest := by
  obtain ⟨q, ds, hWritten, hQuote⟩ := head_write cs
  rw [hWritten, List.cons_append]
  exact skipBlanks_cons (by rcases hQuote with rfl | rfl <;> rfl) _

/-! ## Lines -/

/-- A name that needs no quotes as a key. -/
structure Bare (name : List Char) : Prop where
  ne_nil : name ≠ []
  keyChars : ∀ c ∈ name, isKeyChar c = true

section

variable {name : List Char} (hName : Bare name)
include hName

theorem Bare.head : ∃ c cs, name = c :: cs ∧ isKeyChar c = true := by
  cases name with
  | nil => exact absurd rfl hName.ne_nil
  | cons c cs => exact ⟨c, cs, rfl, hName.keyChars c List.mem_cons_self⟩

theorem keyPart?_bare {c : Char} (hc : isKeyChar c = false) (rest : List Char) :
    keyPart? (name ++ c :: rest) = some (String.ofList name, c :: rest) := by
  obtain ⟨d, ds, hCons, hd⟩ := hName.head
  have hDouble : d ≠ '"' := ne_of_class hd rfl
  have hSingle : d ≠ '\'' := ne_of_class hd rfl
  have hShort : Quoted.readShort? (name ++ c :: rest) = none := by
    simp [hCons, Quoted.readShort?, hDouble, hSingle]
  have hEmpty : name.isEmpty = false := by simp [hCons]
  simp [keyPart?, hShort, List.takeWhile_append_of_pos hName.keyChars,
    List.dropWhile_append_of_pos hName.keyChars, hc, hEmpty]

theorem skipBlanks_bare (rest : List Char) : skipBlanks (name ++ rest) = name ++ rest := by
  obtain ⟨c, cs, hCons, hc⟩ := hName.head
  have hBlank : Quoted.isBlank c = false := not_isBlank_of_class hc ⟨rfl, rfl⟩
  simp [hCons, skipBlanks, hBlank]

theorem skipLines_bare (rest : List Char) : skipLines false (name ++ rest) = name ++ rest := by
  obtain ⟨c, cs, hCons, hc⟩ := hName.head
  have hReturn : c ≠ '\r' := ne_of_class hc rfl
  have hNewline : c ≠ '\n' := ne_of_class hc rfl
  have hComment : c ≠ '#' := ne_of_class hc rfl
  have hBlank : Quoted.isBlank c = false := not_isBlank_of_class hc ⟨rfl, rfl⟩
  simp [hCons, skipLines, hReturn, hNewline, hComment, hBlank]

theorem key?_bare {c d : Char} {rest after : List Char} (hc : isKeyChar c = false)
    (hSkip : skipBlanks (c :: rest) = d :: after) (hDot : d ≠ '.') (parts : Nat) :
    key? (parts + 1) (name ++ c :: rest) = some ([String.ofList name], d :: after) := by
  rw [key?, skipBlanks_bare hName, keyPart?_bare hName hc]
  simp [hSkip, hDot]

theorem statement?_header (rest : List Char) :
    statement? ('[' :: (name ++ ']' :: rest)) = some (.table [String.ofList name], rest) := by
  have hKey : key? (depthLimit - 1) (name ++ ']' :: rest) =
      some ([String.ofList name], ']' :: rest) := key?_bare hName rfl rfl (by decide) _
  obtain ⟨c, cs, hCons, hc⟩ := hName.head
  have hBracket : c ≠ '[' := ne_of_class hc rfl
  rw [hCons, List.cons_append] at hKey ⊢
  simp [statement?, hBracket, hKey]

theorem statement?_entry {text rest : List Char} {v : Value}
    (hValue : value? (depthLimit - 1) (text ++ rest) = some (v, rest))
    (hText : skipBlanks (text ++ rest) = text ++ rest) :
    statement? (name ++ ' ' :: '=' :: ' ' :: (text ++ rest)) =
      some (.entry [String.ofList name] v, rest) := by
  have hKey : key? (depthLimit - 1) (name ++ ' ' :: '=' :: ' ' :: (text ++ rest)) =
      some ([String.ofList name], '=' :: ' ' :: (text ++ rest)) :=
    key?_bare hName rfl rfl (by decide) _
  have hBlank : skipBlanks (' ' :: (text ++ rest)) = text ++ rest := hText
  have hAssigned : assigned? (name ++ ' ' :: '=' :: ' ' :: (text ++ rest)) =
      some ([String.ofList name], text ++ rest) := by
    simp [assigned?, hKey, hBlank]
  obtain ⟨c, cs, hCons, hc⟩ := hName.head
  have hBracket : c ≠ '[' := ne_of_class hc rfl
  rw [hCons, List.cons_append] at hAssigned ⊢
  simp [statement?, hBracket, hAssigned, hValue]

end

theorem lineEnd?_newline (rest : List Char) : lineEnd? ('\n' :: rest) = some rest := by
  rfl

theorem skipLines_newline (rest : List Char) :
    skipLines false ('\n' :: rest) = skipLines false rest := by
  simp [skipLines]

theorem statements?_newline (fuel : Nat) (cs : List Char) :
    statements? fuel ('\n' :: cs) = statements? fuel cs := by
  cases fuel with
  | zero => rfl
  | succ fuel => rw [statements?, statements?, skipLines_newline]

theorem statements?_cons {fuel : Nat} {cs rest : List Char} {s : Statement}
    (hSkip : skipLines false cs = cs) (hRead : statement? cs = some (s, '\n' :: rest)) :
    statements? (fuel + 1) cs = (statements? fuel rest).map (s :: ·) := by
  cases cs with
  | nil => cases hRead
  | cons c cs =>
    rw [statements?, hSkip, Option.map_eq_bind]
    simp only [hRead, lineEnd?_newline, Option.bind_eq_bind, Option.bind_some]
    rfl

end Toml

namespace Settings

open Toml

/-- The text of settings, line by line. -/
def rendered (s : Settings) : List Char :=
  '[' :: ("scheduler".toList ++ ']' :: '\n' ::
    ("max_delegation_depth".toList ++ ' ' :: '=' :: ' ' ::
      (Nat.toDigits 10 s.maxDelegationDepth ++ '\n' :: '\n' ::
        '[' :: ("log".toList ++ ']' :: '\n' ::
          ("filter".toList ++ ' ' :: '=' :: ' ' :: (Quoted.write s.logFilter.toList ++ ['\n']))))))

theorem toToml_eq (s : Settings) : s.toToml =
    if s.maxDelegationDepth < 2 ^ 63 then .ok (String.ofList s.rendered)
    else .error .unwritable := by
  rw [toToml]
  split
  · congr 1
    rw [← String.toList_inj]
    simp [rendered]
  · rfl

example : toToml ⟨8, "a'\"\\\n\x07"⟩ = .ok
    "[scheduler]\nmax_delegation_depth = 8\n\n[log]\nfilter = \"\"\"\na'\"\\\\\n\\u0007\"\"\"\n" :=
  rfl

theorem statements?_rendered {s : Settings} (hDepth : s.maxDelegationDepth < 2 ^ 63) (fuel : Nat) :
    statements? (fuel + 5) s.rendered = some [.table ["scheduler"],
      .entry ["max_delegation_depth"] (.integer s.maxDelegationDepth), .table ["log"],
      .entry ["filter"] (.string s.logFilter)] := by
  have hScheduler : Bare "scheduler".toList := ⟨by decide, List.all_eq_true.mp (by decide)⟩
  have hMaxDepth : Bare "max_delegation_depth".toList :=
    ⟨by decide, List.all_eq_true.mp (by decide)⟩
  have hLog : Bare "log".toList := ⟨by decide, List.all_eq_true.mp (by decide)⟩
  have hFilter : Bare "filter".toList := ⟨by decide, List.all_eq_true.mp (by decide)⟩
  rw [rendered, statements?_cons rfl (statement?_header hScheduler _),
    statements?_cons (skipLines_bare hMaxDepth _)
      (statement?_entry hMaxDepth (value?_toDigits hDepth _ _) (skipBlanks_toDigits _ _)),
    statements?_newline, statements?_cons rfl (statement?_header hLog _),
    statements?_cons (skipLines_bare hFilter _)
      (statement?_entry hFilter (value?_write _ _ _) (skipBlanks_write _ _))]
  simp [statements?, skipLines]

theorem document?_rendered {s : Settings} (hDepth : s.maxDelegationDepth < 2 ^ 63) :
    document? (String.ofList s.rendered) = some [
      ("scheduler", .table .header [("max_delegation_depth", .integer s.maxDelegationDepth)]),
      ("log", .table .header [("filter", .string s.logFilter)])] := by
  obtain ⟨fuel, hFuel⟩ : ∃ fuel, s.rendered.length.succ = fuel + 5 :=
    ⟨s.rendered.length - 4, by simp only [rendered, List.length_append, List.length_cons]; omega⟩
  have hMark : dropMark s.rendered = s.rendered := rfl
  simp only [document?, String.toList_ofList, hMark, hFuel, statements?_rendered hDepth]
  rfl

/-! ## Settings -/

theorem lowered_names : Text.lowered "scheduler" = "scheduler" ∧
    Text.lowered "max_delegation_depth" = "max_delegation_depth" ∧ Text.lowered "log" = "log" ∧
    Text.lowered "filter" = "filter" := by
  decide +kernel

theorem layer_rendered (depth : Int) (filter : String) :
    defaultTree.layer (Setting.ofTomlMembers [
      ("scheduler", .table .header [("max_delegation_depth", .integer depth)]),
      ("log", .table .header [("filter", .string filter)])]) =
    .table [("scheduler", .table [("max_delegation_depth", .integer depth)]),
      ("log", .table [("filter", .text filter)])] := by
  have hScheduler : Setting.Step.path "scheduler" = [.child "scheduler"] := by decide
  have hLog : Setting.Step.path "log" = [.child "log"] := by decide
  obtain ⟨hLowScheduler, hLowDepth, hLowLog, hLowFilter⟩ := lowered_names
  simp [defaultTree, Setting.layer, Setting.ofTomlMembers, Setting.ofToml, hScheduler, hLog,
    Setting.assignAt, Setting.assign, Setting.assignAll, hLowScheduler, hLowDepth, hLowLog,
    hLowFilter, Setting.members, Setting.set, List.lookup_cons]

theorem ofToml_rendered {s : Settings} (hDepth : s.maxDelegationDepth < 2 ^ 63) :
    ofToml (String.ofList s.rendered) =
      if 1 ≤ s.maxDelegationDepth then .ok s else .error .noDepth := by
  have hTree : ofTree (.table [
      ("scheduler", .table [("max_delegation_depth", .integer s.maxDelegationDepth)]),
      ("log", .table [("filter", .text s.logFilter)])]) =
      if s.maxDelegationDepth = 0 then .error .noDepth else .ok s := rfl
  rw [ofToml, document?_rendered hDepth]
  dsimp only
  rw [layer_rendered, hTree]
  by_cases hZero : s.maxDelegationDepth = 0
  · rw [if_pos hZero, if_neg (by omega)]
  · rw [if_neg hZero, if_pos (by omega)]

theorem depth_of_ofTree {root : Setting} {s : Settings} (hTree : ofTree root = .ok s) :
    1 ≤ s.maxDelegationDepth := by
  unfold ofTree at hTree
  dsimp only at hTree
  split at hTree
  case h_1 => cases hTree
  case h_2 =>
    split at hTree
    case isTrue => cases hTree
    case isFalse hDepth =>
      cases hTree
      omega

theorem depth_of_load {e : Environment} {s : Settings} (hLoad : load e = .ok s) :
    1 ≤ s.maxDelegationDepth := by
  simp only [load, bind, Except.bind] at hLoad
  split at hLoad
  case h_1 => cases hLoad
  case h_2 => exact depth_of_ofTree hLoad

/-- What settings keep to when they are written and read again. They are written just when the limit
is an integer of the text, and what is written reads as the same settings, unless it allows no
frame. If they were loaded, then what the program shows of them reads as the same settings, and it
shows them whenever they can be written. -/
structure Survives (s : Settings) : Prop where
  written : (∃ text, s.toToml = .ok text) ↔ s.maxDelegationDepth ≤ 2 ^ 63 - 1
  read : ∀ text, s.toToml = .ok text →
    ofToml text = if 1 ≤ s.maxDelegationDepth then .ok s else .error .noDepth
  shown : ∀ (e : Environment) (i : CommandLine.Invocation), i.order = .settings →
    load (Console.environment e i) = .ok s →
      if s.maxDelegationDepth ≤ 2 ^ 63 - 1 then
        ∃ text, Console.run e i = ⟨text, none⟩ ∧ ofToml text = .ok s
      else Console.run e i = .ofFailure Flaw.unwritable.message

theorem survives (s : Settings) : s.Survives where
  written := by
    rw [toToml_eq]
    split <;> simp <;> omega
  read text hText := by
    rw [toToml_eq] at hText
    split at hText
    case isTrue hDepth =>
      cases hText
      exact ofToml_rendered hDepth
    case isFalse => cases hText
  shown e i hOrder hLoad := by
    have hRun : Console.run e i = Console.settings s := by
      rw [Console.run, hLoad, hOrder]
      rfl
    rw [hRun, Console.settings, toToml_eq]
    by_cases hDepth : s.maxDelegationDepth < 2 ^ 63
    · rw [if_pos hDepth, if_pos (by omega)]
      refine ⟨_, rfl, ?_⟩
      rw [ofToml_rendered hDepth, if_pos (depth_of_load hLoad)]
    · rw [if_neg hDepth, if_neg (by omega)]

end Settings

end Interlace
