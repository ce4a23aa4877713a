import Calculator.Proofs.Rescan
/-!
What the scanner keeps of a text. Each character that is no blank goes into exactly one token,
in the order of the text, so the texts of the tokens joined give the text without its blanks
(`scanFrom_textChars`). A text is refused exactly at its first character that is no blank, ASCII
digit, point, symbol or letter (`scanFrom_eq_error_iff`), whatever token is open there. The names
it gives are `√` or runs of letters that are no constant and no operator.
-/

namespace Calculator

namespace Token

def symbolChars : List Char := ['+', '-', '*', '/', '÷', '^', '!', '(', ')', 'π', '√']

def Foreign (c : Char) : Prop :=
  ¬(Text.isBlank c = true ∨ c.isDigit = true ∨ c = '.' ∨ c ∈ symbolChars ∨ Text.isLetter c = true)

def FirstForeign (cs : List Char) (c : Char) : Prop :=
  ∃ pre post, cs = pre ++ c :: post ∧ (∀ d ∈ pre, ¬Foreign d) ∧ Foreign c

def Pending.chars : Pending → List Char
  | .empty => []
  | .number r => r.reverse
  | .name r => r.reverse

def textChars (ts : List Token) : List Char := (ts.map fun t => t.text.toList).flatten

def MarksUnspaced (cs : List Char) : Prop :=
  ∀ b ∈ cs, Text.isBlank b = true →
    ¬['e', b] <:+: cs ∧ ¬['e', '+', b] <:+: cs ∧ ¬['e', '-', b] <:+: cs

instance (cs : List Char) : Decidable (MarksUnspaced cs) :=
  decidable_of_iff (cs.all fun b => !Text.isBlank b ||
      !(decide (['e', b] <:+: cs) || decide (['e', '+', b] <:+: cs) ||
        decide (['e', '-', b] <:+: cs)) = true)
    (by
      simp only [MarksUnspaced, List.all_eq_true, Bool.or_eq_true, Bool.not_eq_true',
        decide_eq_false_iff_not]
      refine forall₂_congr fun b _ => ?_
      cases Text.isBlank b <;> simp [and_assoc])

/-! ### Characters that begin no token -/

theorem isSome_single?_iff {c : Char} : (single? c).isSome ↔ c ∈ symbolChars := by
  unfold single? Operator.ofSymbol?
  split_ifs <;> subst_vars
  · simp [symbolChars]
  · simp [symbolChars]
  · simp [symbolChars]
  · simp [symbolChars]
  · split <;> simp_all [symbolChars]

theorem start_eq_none_iff {c : Char} :
    start c = none ↔ ¬(c.isDigit = true ∨ c = '.') ∧ c ∉ symbolChars ∧ Text.isLetter c = false := by
  unfold start
  by_cases hd : (c.isDigit || c == '.') = true
  · have : c.isDigit = true ∨ c = '.' := by simpa using hd
    simp [hd, this]
  · have hd' : ¬(c.isDigit = true ∨ c = '.') := by simpa using hd
    rw [if_neg hd, ← isSome_single?_iff]
    cases hs : single? c with
    | some t => simp
    | none => cases hl : Text.isLetter c <;> simp [hd']

theorem foreign_iff {c : Char} : Foreign c ↔ Text.isBlank c = false ∧ start c = none := by
  rw [Foreign, start_eq_none_iff]
  simp only [not_or, Bool.not_eq_true]
  tauto

theorem not_foreign_of_isBlank {c : Char} (hb : Text.isBlank c = true) : ¬Foreign c :=
  fun h => absurd hb (by simp [(foreign_iff.mp h).1])

theorem not_foreign_of_takes {P : Pending} {c : Char} {rest : List Char}
    (h : P.takes c rest = true) : ¬Foreign c := by
  intro hf
  cases P with
  | empty => cases h
  | number r =>
    simp only [Pending.takes, Bool.or_eq_true, beq_iff_eq, Bool.and_eq_true] at h
    rcases h with ((hd | rfl) | ⟨rfl | ⟨rfl, _⟩, _⟩) | ⟨rfl | rfl, _⟩ <;>
      simp_all [Foreign, symbolChars] <;> exact absurd hf (by decide)
  | name r =>
    simp only [Pending.takes, nameChar, Bool.and_eq_true] at h
    exact hf (.inr (.inr (.inr (.inr h.2))))

theorem not_firstForeign_nil (c : Char) : ¬FirstForeign [] c := by
  rintro ⟨pre, post, h, -⟩
  simp at h

theorem firstForeign_cons_of_not_foreign {d : Char} (hd : ¬Foreign d) (rest : List Char)
    (c : Char) : FirstForeign (d :: rest) c ↔ FirstForeign rest c := by
  constructor
  · rintro ⟨_ | ⟨d', pre⟩, post, h, hpre, hc⟩
    · cases h
      exact absurd hc hd
    · cases h
      exact ⟨pre, post, rfl, fun x hx => hpre x (List.mem_cons_of_mem _ hx), hc⟩
  · rintro ⟨pre, post, rfl, hpre, hc⟩
    exact ⟨d :: pre, post, rfl, List.forall_mem_cons.mpr ⟨hd, hpre⟩, hc⟩

theorem firstForeign_cons_of_foreign {d : Char} (hd : Foreign d) (rest : List Char) (c : Char) :
    FirstForeign (d :: rest) c ↔ c = d := by
  constructor
  · rintro ⟨_ | ⟨d', pre⟩, post, h, hpre, hc⟩
    · cases h
      rfl
    · cases h
      exact absurd hd (hpre d List.mem_cons_self)
  · rintro rfl
    exact ⟨[], rest, rfl, by simp, hd⟩

theorem scanFrom_eq_error_iff (cs : List Char) (P : Pending) (done : List Token) (c : Char) :
    scanFrom cs P done = .error (.invalidCharacter c) ↔ FirstForeign cs c := by
  induction cs generalizing P done with
  | nil => simp [scanFrom, not_firstForeign_nil]
  | cons d rest ih =>
    by_cases hb : Text.isBlank d = true
    · rw [scanFrom_blank hb, firstForeign_cons_of_not_foreign (not_foreign_of_isBlank hb), ih]
    rw [Bool.not_eq_true] at hb
    cases hc : P.takes d rest
    · cases hs : start d with
      | none =>
        rw [scanFrom_refuse hb hc hs, firstForeign_cons_of_foreign (foreign_iff.mpr ⟨hb, hs⟩)]
        simp [eq_comm]
      | some next =>
        have hd : ¬Foreign d := fun h => by simp [(foreign_iff.mp h).2] at hs
        obtain ⟨Q, emitted⟩ := next
        rw [scanFrom_start hb hc hs, firstForeign_cons_of_not_foreign hd, ih]
    · rw [scanFrom_takes hc, firstForeign_cons_of_not_foreign (not_foreign_of_takes hc), ih]

/-! ### The texts of the tokens -/

theorem textChars_append (ts us : List Token) :
    textChars (ts ++ us) = textChars ts ++ textChars us := by
  simp [textChars]

@[simp] theorem textChars_nil : textChars [] = [] := rfl

@[simp] theorem textChars_singleton (t : Token) : textChars [t] = t.text.toList := by
  simp [textChars]

theorem toList_join_text (ts : List Token) : (String.join (ts.map text)).toList = textChars ts := by
  induction ts with
  | nil => rfl
  | cons t ts ih => simp [String.join_cons, ih, textChars]

theorem textChars_close (P : Pending) (done : List Token) :
    textChars (P.close done).reverse = textChars done.reverse ++ P.chars := by
  cases P with
  | empty => simp [Pending.close, Pending.chars]
  | number r => simp [Pending.close, Pending.chars, textChars_append, text]
  | name r => simp [Pending.close, Pending.chars, textChars_append]

theorem chars_push_of_takes {P : Pending} {c : Char} {rest : List Char}
    (h : P.takes c rest = true) : (P.push c).chars = P.chars ++ [c] := by
  cases P with
  | empty => cases h
  | number r => simp [Pending.push, Pending.chars]
  | name r => simp [Pending.push, Pending.chars]

theorem textChars_start {c : Char} {Q : Pending} {emitted : List Token}
    (hb : Text.isBlank c = false) (hs : start c = some (Q, emitted)) :
    textChars emitted.reverse ++ Q.chars = [c] := by
  rcases start_cases hb hs with
    ⟨rfl, rfl, -⟩ | ⟨rfl, rfl, -⟩ | ⟨rfl, t, rfl, -, -, htext⟩
  · rfl
  · rfl
  · simp [htext, Pending.chars]

theorem scanFrom_textChars {cs : List Char} {P : Pending} {done ts : List Token}
    (h : scanFrom cs P done = .ok ts) :
    textChars ts = textChars done.reverse ++ P.chars ++ cs.filter fun c => !Text.isBlank c := by
  induction cs generalizing P done with
  | nil =>
    rw [scanFrom] at h
    cases h
    simp [textChars_close]
  | cons d rest ih =>
    by_cases hb : Text.isBlank d = true
    · rw [scanFrom_blank hb] at h
      simp [ih h, hb]
    rw [Bool.not_eq_true] at hb
    cases hc : P.takes d rest
    · cases hs : start d with
      | none =>
        rw [scanFrom_refuse hb hc hs] at h
        cases h
      | some next =>
        obtain ⟨Q, emitted⟩ := next
        rw [scanFrom_start hb hc hs] at h
        rw [ih h, List.reverse_append, textChars_append, textChars_close, List.filter_cons_of_pos
          (by simp [hb]), List.append_assoc, List.append_assoc, List.append_assoc,
          ← List.append_assoc (textChars emitted.reverse), textChars_start hb hs]
        simp
    · rw [scanFrom_takes hc] at h
      rw [ih h, chars_push_of_takes hc, List.filter_cons_of_pos (by simp [hb])]
      simp

/-! ### Names -/

theorem name_of_scanned {n : String} (h : (name n).Scanned) :
    n = "√" ∨ (n ≠ "" ∧ (∀ c ∈ n.toList, Text.isLetter c = true) ∧
      n ≠ "e" ∧ n ≠ "C" ∧ n ≠ "P") := by
  rcases h with rfl | ⟨hne, hall, hof⟩
  · exact .inl rfl
  refine .inr ⟨fun h => hne (by simp [h]), fun c hc => ?_, ?_, ?_, ?_⟩
  · have := List.all_eq_true.mp hall c hc
    simp only [nameChar, Bool.and_eq_true] at this
    exact this.2
  all_goals rintro rfl; simp [ofName] at hof

/-! ### Blanks -/

theorem MarksUnspaced.tail {c : Char} {rest : List Char} (h : MarksUnspaced (c :: rest)) :
    MarksUnspaced rest := by
  intro b hb hblank
  obtain ⟨h1, h2, h3⟩ := h b (List.mem_cons_of_mem c hb) hblank
  exact ⟨fun hi => h1 (List.infix_cons hi), fun hi => h2 (List.infix_cons hi),
    fun hi => h3 (List.infix_cons hi)⟩

theorem exponentFollows_filter_blanks {rest : List Char} (h : MarksUnspaced ('e' :: rest)) :
    exponentFollows rest = exponentFollows (rest.filter fun c => !Text.isBlank c) := by
  rcases rest with _ | ⟨b, more⟩
  · rfl
  have hb : Text.isBlank b = false := by
    by_contra hb
    exact (h b (by simp) (by simpa using hb)).1 (List.IsPrefix.isInfix (by simp))
  rw [List.filter_cons_of_pos (by simp [hb])]
  by_cases hsign : b = '+' ∨ b = '-'
  · rcases more with _ | ⟨d, more⟩
    · rfl
    have hd : Text.isBlank d = false := by
      by_contra hd
      obtain ⟨-, h2, h3⟩ := h d (by simp) (by simpa using hd)
      rcases hsign with rfl | rfl
      · exact h2 (List.IsPrefix.isInfix (by simp))
      · exact h3 (List.IsPrefix.isInfix (by simp))
    rw [List.filter_cons_of_pos (by simp [hd])]
    rfl
  · have : (b == '+' || b == '-') = false := by simpa using hsign
    simp [exponentFollows, this]

theorem scanFrom_filter_blanks {cs : List Char} (h : MarksUnspaced cs) (P : Pending)
    (done : List Token) :
    scanFrom cs P done = scanFrom (cs.filter fun c => !Text.isBlank c) P done := by
  induction cs generalizing P done with
  | nil => rfl
  | cons d rest ih =>
    by_cases hb : Text.isBlank d = true
    · rw [scanFrom_blank hb, ih h.tail, List.filter_cons_of_neg (by simp [hb])]
    rw [Bool.not_eq_true] at hb
    rw [List.filter_cons_of_pos (by simp [hb])]
    have hmark : d = 'e' → exponentFollows rest =
        exponentFollows (rest.filter fun c => !Text.isBlank c) := by
      rintro rfl
      exact exponentFollows_filter_blanks h
    cases hc : P.takes d rest
    · have hc' : P.takes d (rest.filter fun c => !Text.isBlank c) = false :=
        (takes_congr hmark).symm.trans hc
      cases hs : start d with
      | none => rw [scanFrom_refuse hb hc hs, scanFrom_refuse hb hc' hs]
      | some next =>
        obtain ⟨Q, emitted⟩ := next
        rw [scanFrom_start hb hc hs, scanFrom_start hb hc' hs, ih h.tail]
    · have hc' : P.takes d (rest.filter fun c => !Text.isBlank c) = true :=
        (takes_congr hmark).symm.trans hc
      rw [scanFrom_takes hc, scanFrom_takes hc', ih h.tail]

/-- The scanner loses nothing and refuses exactly the characters a text may not hold: it fails at
the first of them; the texts of the tokens it gives, joined, are the text without its blanks; and
each name it gives is `√` or a run of letters that is no constant or operator. -/
theorem scan_keeps_text (s : String) :
    (∀ c, scan s = .error (.invalidCharacter c) ↔ FirstForeign s.toList c) ∧
      ∀ ts, scan s = .ok ts →
        String.join (ts.map text) = String.ofList (s.toList.filter fun c => !Text.isBlank c) ∧
          ∀ n, name n ∈ ts → n = "√" ∨ (n ≠ "" ∧ (∀ c ∈ n.toList, Text.isLetter c = true) ∧
            n ≠ "e" ∧ n ≠ "C" ∧ n ≠ "P") := by
  refine ⟨fun c => scanFrom_eq_error_iff s.toList .empty [] c, fun ts h => ⟨?_, fun n hn => ?_⟩⟩
  · rw [← String.toList_inj, toList_join_text, String.toList_ofList, scanFrom_textChars h]
    rfl
  · exact name_of_scanned ((rereadable_of_scan h).1 _ hn)

/-- `2 x ÷ 1e+3` gives a number, a name, an operator and a number whose texts make `2x÷1e+3`,
and `12 # 3` is refused at `#`. -/
theorem scan_keeps_text_samples :
    scan "2 x ÷ 1e+3" = .ok [number "2", name "x", operator .obelus, number "1e+3"] ∧
      String.join ([number "2", name "x", operator .obelus, number "1e+3"].map text) =
        String.ofList ("2 x ÷ 1e+3".toList.filter fun c => !Text.isBlank c) ∧
      scan "12 # 3" = .error (.invalidCharacter '#') ∧ FirstForeign "12 # 3".toList '#' := by
  have hok : scan "2 x ÷ 1e+3" = .ok [number "2", name "x", operator .obelus, number "1e+3"] := by
    decide
  have herr : scan "12 # 3" = .error (.invalidCharacter '#') := by decide
  exact ⟨hok, ((scan_keeps_text _).2 _ hok).1, herr, ((scan_keeps_text _).1 '#').mp herr⟩

/-- Blanks change nothing in a text whose exponent marks see none: the text scans as it does with
its blanks taken out. -/
theorem scan_filter_blanks (s : String) (h : MarksUnspaced s.toList) :
    scan s = scan (String.ofList (s.toList.filter fun c => !Text.isBlank c)) := by
  rw [scan, scan, String.toList_ofList]
  exact scanFrom_filter_blanks h .empty []

/-- The blank after the `e` of `2e 5` makes it the constant `e` between two numbers, where `2e5`
is one number; `1 2e+5 ( 3 )`, whose mark sees no blank, scans as `12e+5(3)`. -/
theorem scan_blank_after_mark :
    scan "2e 5" = .ok [number "2", constant .e, number "5"] ∧ scan "2e5" = .ok [number "2e5"] ∧
      scan "1 2e+5 ( 3 )" = scan "12e+5(3)" := by
  refine ⟨by decide, by decide, ?_⟩
  rw [scan_filter_blanks "1 2e+5 ( 3 )" (by decide)]
  decide

end Token

end Calculator
