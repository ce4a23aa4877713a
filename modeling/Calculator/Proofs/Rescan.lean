import Calculator.Proofs.Reentry
/-!
Tokens printed and read again. `format` writes tokens with one blank between them, and the scanner
reading that text gives the same tokens back whenever they came from the scanner in the first
place (`scan_format_of_scan`).
-/

namespace Calculator

namespace Token

def nameChar (c : Char) : Bool :=
  !Text.isBlank c && !(c.isDigit || c == '.') && (single? c).isNone && Text.isLetter c

namespace Pending

def takes : Pending → Char → List Char → Bool
  | empty, _, _ => false
  | number r, c, rest =>
    c.isDigit || c == '.' ||
      ((c == 'E' || (c == 'e' && exponentFollows rest)) && (Pending.number r).hasDigit) ||
      ((c == '+' || c == '-') && (Pending.number r).endsWithMark)
  | name _, c, _ => nameChar c

def push : Pending → Char → Pending
  | empty, _ => empty
  | number r, c => number (c :: r)
  | name r, c => name (c :: r)

def pushAll (P : Pending) (cs : List Char) : Pending := cs.foldl push P

def takesAll : Pending → List Char → List Char → Bool
  | _, [], _ => true
  | P, c :: cs, rest => P.takes c (cs ++ rest) && takesAll (P.push c) cs rest

end Pending

def start (c : Char) : Option (Pending × List Token) :=
  if c.isDigit || c == '.' then some (.number [c], [])
  else match single? c with
    | some t => some (.empty, [t])
    | none => if Text.isLetter c then some (.name [c], []) else none

/-! ### One character -/

theorem isBlank_of_takes {P : Pending} {c : Char} {rest : List Char} (h : P.takes c rest = true) :
    Text.isBlank c = false := by
  cases P with
  | empty => cases h
  | number r =>
    simp only [Pending.takes, Bool.or_eq_true, beq_iff_eq, Bool.and_eq_true] at h
    rcases h with ((hd | rfl) | ⟨rfl | ⟨rfl, _⟩, _⟩) | ⟨rfl | rfl, _⟩
    · exact isBlank_of_mantissa (.inl hd)
    all_goals decide
  | name r =>
    simp only [Pending.takes, nameChar, Bool.and_eq_true, Bool.not_eq_true'] at h
    exact h.1.1.1

theorem scanFrom_blank {c : Char} (hc : Text.isBlank c = true) (rest : List Char) (P : Pending)
    (done : List Token) : scanFrom (c :: rest) P done = scanFrom rest P done := by
  rw [scanFrom, if_pos hc]

theorem scanFrom_takes {P : Pending} {c : Char} {rest : List Char} (h : P.takes c rest = true)
    (done : List Token) : scanFrom (c :: rest) P done = scanFrom rest (P.push c) done := by
  rw [scanFrom, if_neg (by simp [isBlank_of_takes h])]
  cases P with
  | empty => cases h
  | number r =>
    simp only [Pending.takes] at h
    split_ifs <;> simp_all [Pending.pushNumber, Pending.push]
  | name r =>
    simp only [Pending.takes, nameChar, Bool.and_eq_true, Bool.not_eq_true'] at h
    obtain ⟨⟨⟨-, hdigit⟩, hsingle⟩, hletter⟩ := h
    rw [if_neg (by simpa using hdigit), if_neg (by simp [Pending.hasDigit]),
      if_neg (by simp [Pending.endsWithMark]), Option.isNone_iff_eq_none.mp hsingle]
    simp only [hletter, if_true]
    rfl

theorem marks_of_not_takes {P : Pending} {c : Char} {rest : List Char}
    (hc : P.takes c rest = false) :
    ((c == 'E' || (c == 'e' && exponentFollows rest)) && P.hasDigit) = false ∧
      ((c == '+' || c == '-') && P.endsWithMark) = false := by
  cases P <;> simp_all [Pending.takes, Pending.hasDigit, Pending.endsWithMark]

theorem scanFrom_start {P : Pending} {c : Char} {rest : List Char} (hb : Text.isBlank c = false)
    (hc : P.takes c rest = false) {Q : Pending} {emitted : List Token}
    (hs : start c = some (Q, emitted)) (done : List Token) :
    scanFrom (c :: rest) P done = scanFrom rest Q (emitted ++ P.close done) := by
  rw [scanFrom, if_neg (by simp [hb])]
  unfold start at hs
  by_cases hd : (c.isDigit || c == '.') = true
  · rw [if_pos hd] at hs
    cases hs
    rw [if_pos hd]
    cases P with
    | number r => simp [Pending.takes, hd] at hc
    | _ => rfl
  rw [if_neg hd] at hs ⊢
  obtain ⟨hmark, hsign⟩ := marks_of_not_takes hc
  rw [if_neg (by simp [hmark]), if_neg (by simp [hsign])]
  cases hsingle : single? c with
  | some t =>
    rw [hsingle] at hs
    cases hs
    rfl
  | none =>
    rw [hsingle] at hs
    by_cases hl : Text.isLetter c = true
    · simp only [hl, if_true, Option.some.injEq, Prod.mk.injEq] at hs ⊢
      obtain ⟨rfl, rfl⟩ := hs
      cases P with
      | name r => simp [Pending.takes, nameChar, hb, hd, hsingle, hl] at hc
      | _ => rfl
    · simp [hl] at hs

theorem scanFrom_refuse {P : Pending} {c : Char} {rest : List Char} (hb : Text.isBlank c = false)
    (hc : P.takes c rest = false) (hs : start c = none) (done : List Token) :
    scanFrom (c :: rest) P done = .error (.invalidCharacter c) := by
  rw [scanFrom, if_neg (by simp [hb])]
  unfold start at hs
  by_cases hd : (c.isDigit || c == '.') = true
  · simp [hd] at hs
  obtain ⟨hmark, hsign⟩ := marks_of_not_takes hc
  rw [if_neg hd, if_neg (by simp [hmark]), if_neg (by simp [hsign])]
  rw [if_neg hd] at hs
  cases hsingle : single? c with
  | some t => simp [hsingle] at hs
  | none =>
    have hl : Text.isLetter c = false := by simpa [hsingle] using hs
    simp [hl]

/-! ### Looking past a token -/

theorem not_digit_of_isBlank {b : Char} (hb : Text.isBlank b = true) :
    b.isDigit = false ∧ b ≠ '+' ∧ b ≠ '-' := by
  refine ⟨?_, ?_, ?_⟩
  · cases hd : b.isDigit
    · rfl
    · rw [isBlank_of_mantissa (.inl hd)] at hb
      cases hb
  · rintro rfl
    exact absurd hb (by decide)
  · rintro rfl
    exact absurd hb (by decide)

theorem exponentFollows_append_blank {b : Char} (hb : Text.isBlank b = true) (ys more : List Char) :
    exponentFollows (ys ++ b :: more) = exponentFollows ys := by
  obtain ⟨hdigit, hplus, hminus⟩ := not_digit_of_isBlank hb
  rcases ys with _ | ⟨d, _ | ⟨d', ys⟩⟩
  · simp [exponentFollows, hdigit, hplus, hminus]
  · simp [exponentFollows, hdigit]
  · rfl

theorem exponentFollows_append {ys : List Char} (h : exponentFollows ys = true) (rest : List Char) :
    exponentFollows (ys ++ rest) = true := by
  rcases ys with _ | ⟨d, _ | ⟨d', ys⟩⟩
  · cases h
  · simp_all [exponentFollows]
  · exact h

theorem exponentFollows_of_close {ys : List Char} {c : Char} {more : List Char}
    (h : exponentFollows (ys ++ c :: more) = true) (hdigit : c.isDigit = false)
    (hsign : ys = [] → c ≠ '+' ∧ c ≠ '-') : exponentFollows ys = true := by
  rcases ys with _ | ⟨d, _ | ⟨d', ys⟩⟩
  · simp_all [exponentFollows]
  · simp_all [exponentFollows]
  · exact h

theorem takes_mono {P : Pending} {c : Char} {ys zs : List Char}
    (h : c = 'e' → exponentFollows ys = true → exponentFollows zs = true) :
    P.takes c ys = true → P.takes c zs = true := by
  cases P <;> simp only [Pending.takes] <;> grind

theorem takes_congr {P : Pending} {c : Char} {ys zs : List Char}
    (h : c = 'e' → exponentFollows ys = exponentFollows zs) : P.takes c ys = P.takes c zs :=
  Bool.eq_iff_iff.mpr
    ⟨takes_mono fun he hf => h he ▸ hf, takes_mono fun he hf => (h he).symm ▸ hf⟩

namespace Pending

@[simp]
theorem pushAll_nil (P : Pending) : P.pushAll [] = P := rfl

@[simp]
theorem pushAll_cons (P : Pending) (c : Char) (cs : List Char) :
    P.pushAll (c :: cs) = (P.push c).pushAll cs := rfl

@[simp]
theorem pushAll_number (r cs : List Char) : (number r).pushAll cs = number (cs.reverse ++ r) := by
  induction cs generalizing r with
  | nil => rfl
  | cons c cs ih => simp [ih, push]

@[simp]
theorem pushAll_name (r cs : List Char) : (name r).pushAll cs = name (cs.reverse ++ r) := by
  induction cs generalizing r with
  | nil => rfl
  | cons c cs ih => simp [ih, push]

theorem takesAll_snoc (P : Pending) (cs : List Char) (c : Char) (rest : List Char) :
    P.takesAll (cs ++ [c]) rest = (P.takesAll cs (c :: rest) && (P.pushAll cs).takes c rest) := by
  induction cs generalizing P with
  | nil => simp [takesAll]
  | cons x cs ih => simp [takesAll, ih, Bool.and_assoc]

theorem takesAll_blank {b : Char} (hb : Text.isBlank b = true) (P : Pending) (cs more : List Char) :
    P.takesAll cs (b :: more) = P.takesAll cs [] := by
  induction cs generalizing P with
  | nil => rfl
  | cons c cs ih =>
    simp only [takesAll, ih, List.append_nil,
      takes_congr (fun _ => exponentFollows_append_blank hb cs more)]

theorem takesAll_of_nil {P : Pending} {cs : List Char} (h : P.takesAll cs [] = true)
    (rest : List Char) : P.takesAll cs rest = true := by
  induction cs generalizing P with
  | nil => rfl
  | cons c cs ih =>
    simp only [takesAll, Bool.and_eq_true, List.append_nil] at h ⊢
    exact ⟨takes_mono (fun _ hf => exponentFollows_append hf rest) h.1, ih h.2⟩

theorem takesAll_name (r cs rest : List Char) :
    (name r).takesAll cs rest = cs.all nameChar := by
  induction cs generalizing r with
  | nil => rfl
  | cons c cs ih => simp [takesAll, takes, push, ih]

theorem takesAll_close {r cs : List Char} {c : Char} {more : List Char}
    (h : (number r).takesAll cs (c :: more) = true)
    (hc : (number (cs.reverse ++ r)).takes c more = false) :
    (number r).takesAll cs [] = true := by
  induction cs generalizing r with
  | nil => rfl
  | cons x cs ih =>
    simp only [takesAll, Bool.and_eq_true, List.append_nil] at h ⊢
    have hc' : (number (cs.reverse ++ x :: r)).takes c more = false := by simpa using hc
    refine ⟨takes_mono (fun hx hf => exponentFollows_of_close hf ?_ ?_) h.1, ih h.2 hc'⟩
    · -- an open number takes every digit
      simp_all [takes]
    · -- and every sign after a mark
      rintro rfl
      subst hx
      constructor <;> rintro rfl <;> simp_all [takes, endsWithMark]

end Pending

theorem scanFrom_takesAll {P : Pending} {cs rest : List Char} (h : P.takesAll cs rest = true)
    (done : List Token) : scanFrom (cs ++ rest) P done = scanFrom rest (P.pushAll cs) done := by
  induction cs generalizing P with
  | nil => rfl
  | cons c cs ih =>
    simp only [Pending.takesAll, Bool.and_eq_true] at h
    rw [List.cons_append, scanFrom_takes h.1, ih h.2, Pending.pushAll_cons]

/-! ### Tokens read from their texts -/

def opened : Token → Pending
  | number t => .number t.toList.reverse
  | name t => if t = "√" then .empty else .name t.toList.reverse
  | operator .choose => .name ['C']
  | operator .arrange => .name ['P']
  | constant .e => .name ['e']
  | _ => .empty

def Scanned : Token → Prop
  | number t => ∃ c tail, t.toList = c :: tail ∧ (c.isDigit || c == '.') = true ∧
      (Pending.number [c]).takesAll tail [] = true
  | name t => t = "√" ∨ (t.toList ≠ [] ∧ t.toList.all nameChar = true ∧ ofName t = name t)
  | _ => True

def Separate (a b : Token) : Prop := ∀ c ∈ b.text.toList.head?, a.opened.takes c [] = false

def Rereadable (ts : List Token) : Prop := (∀ t ∈ ts, t.Scanned) ∧ ts.IsChain Separate

theorem exponentFollows_of_blank {rest : List Char}
    (hrest : ∀ b ∈ rest.head?, Text.isBlank b = true) : exponentFollows rest = false := by
  cases rest with
  | nil => rfl
  | cons b more => exact exponentFollows_append_blank (hrest b rfl) [] more

theorem exponentFollows_name {cs rest : List Char} (hcs : cs.all nameChar = true)
    (hrest : ∀ b ∈ rest.head?, Text.isBlank b = true) :
    exponentFollows (cs ++ rest) = false := by
  cases cs with
  | nil => exact exponentFollows_of_blank hrest
  | cons d ds =>
    have hd : nameChar d = true := by simp_all
    have hsign : d ≠ '+' ∧ d ≠ '-' := by
      constructor <;> rintro rfl <;> simp [nameChar, single?, Operator.ofSymbol?] at hd
    simp only [nameChar, Bool.and_eq_true, Bool.not_eq_true', Bool.or_eq_false_iff] at hd
    simp [exponentFollows, hd.1.1.2.1, hsign]

theorem scanFrom_lead {P : Pending} {c : Char} {rest : List Char} (hb : Text.isBlank c = false)
    (hP : P.takes c [] = false) (he : c = 'e' → exponentFollows rest = false)
    {Q : Pending} {emitted : List Token} (hs : start c = some (Q, emitted)) (done : List Token) :
    scanFrom (c :: rest) P done = scanFrom rest Q (emitted ++ P.close done) :=
  scanFrom_start hb ((takes_congr fun h => by rw [he h]; rfl).trans hP) hs done

theorem scanFrom_alone {t : Token} {c : Char} (htext : t.text.toList = [c])
    (hb : Text.isBlank c = false) (hs : start c = some (.empty, [t])) (hopen : t.opened = .empty)
    {P : Pending} (hP : ∀ x ∈ t.text.toList.head?, P.takes x [] = false) {rest : List Char}
    (hrest : exponentFollows rest = false) (done : List Token) :
    ∃ done', t.opened.close done' = t :: P.close done ∧
      scanFrom (t.text.toList ++ rest) P done = scanFrom rest t.opened done' := by
  refine ⟨t :: P.close done, by rw [hopen]; rfl, ?_⟩
  rw [htext, List.singleton_append, hopen,
    scanFrom_lead hb (hP c (by simp [htext])) (fun _ => hrest) hs]
  rfl

theorem isBlank_of_nameChar {c : Char} (hc : nameChar c = true) : Text.isBlank c = false := by
  simp only [nameChar, Bool.and_eq_true, Bool.not_eq_true'] at hc
  exact hc.1.1.1

theorem start_of_nameChar {c : Char} (hc : nameChar c = true) : start c = some (.name [c], []) := by
  simp only [nameChar, Bool.and_eq_true, Bool.not_eq_true', Option.isNone_iff_eq_none] at hc
  obtain ⟨⟨⟨-, hdigit⟩, hsingle⟩, hletter⟩ := hc
  simp [start, hdigit, hsingle, hletter]

theorem ne_root_of_nameChar {s : String} (hs : s.toList.all nameChar = true) : s ≠ "√" := by
  rintro rfl
  exact absurd hs (by decide)

@[simp]
theorem text_ofName (s : String) : (ofName s).text = s := by
  unfold ofName
  split_ifs with he hC hP
  · exact he.symm
  · exact hC.symm
  · exact hP.symm
  · rfl

theorem ofName_scanned {s : String} (hne : s.toList ≠ []) (hs : s.toList.all nameChar = true) :
    (ofName s).Scanned ∧ (ofName s).opened = .name s.toList.reverse := by
  unfold ofName
  split_ifs with he hC hP
  · subst he
    exact ⟨trivial, rfl⟩
  · subst hC
    exact ⟨trivial, rfl⟩
  · subst hP
    exact ⟨trivial, rfl⟩
  · refine ⟨.inr ⟨hne, hs, by simp [ofName, he, hC, hP]⟩, ?_⟩
    simp [opened, ne_root_of_nameChar hs]

theorem scanFrom_nameChars {c : Char} {cs : List Char} (hcs : (c :: cs).all nameChar = true)
    {P : Pending} (hP : P.takes c [] = false) {rest : List Char}
    (hrest : ∀ b ∈ rest.head?, Text.isBlank b = true) (done : List Token) :
    scanFrom ((c :: cs) ++ rest) P done =
      scanFrom rest (.name (c :: cs).reverse) (P.close done) := by
  have hc : nameChar c = true := by simp_all
  have htail : cs.all nameChar = true := by simp_all
  rw [List.cons_append, scanFrom_lead (isBlank_of_nameChar hc) hP
      (fun _ => exponentFollows_name htail hrest) (start_of_nameChar hc),
    List.nil_append, scanFrom_takesAll (by rw [Pending.takesAll_name]; exact htail)]
  simp

/-- A token read back from its text, a blank or nothing coming after it: the open token before it
is closed, and the token is left open, to be closed onto the tokens before it. -/
theorem scanFrom_text {t : Token} (ht : t.Scanned) {P : Pending}
    (hP : ∀ c ∈ t.text.toList.head?, P.takes c [] = false) (rest : List Char)
    (hrest : ∀ b ∈ rest.head?, Text.isBlank b = true) (done : List Token) :
    ∃ done', t.opened.close done' = t :: P.close done ∧
      scanFrom (t.text.toList ++ rest) P done = scanFrom rest t.opened done' := by
  have hfollow := exponentFollows_of_blank hrest
  cases t with
  | number s =>
    obtain ⟨c, tail, hs, hc, hall⟩ := ht
    have hc' : c.isDigit = true ∨ c = '.' := by simpa using hc
    have hstart : start c = some (.number [c], []) := by simp [start, hc]
    refine ⟨P.close done, by simp [opened, Pending.close], ?_⟩
    rw [text, hs, List.cons_append,
      scanFrom_lead (isBlank_of_mantissa hc') (hP c (by simp [text, hs]))
        (fun he => by subst he; simp at hc') hstart,
      List.nil_append, scanFrom_takesAll (Pending.takesAll_of_nil hall rest)]
    simp [opened, hs]
  | name s =>
    rcases ht with rfl | ⟨hne, hall, hof⟩
    · exact scanFrom_alone rfl (by decide) (by decide) rfl hP hfollow done
    obtain ⟨c, tail, hs⟩ := List.exists_cons_of_ne_nil hne
    have hroot := ne_root_of_nameChar hall
    refine ⟨P.close done, by simp [opened, Pending.close, hroot, hof], ?_⟩
    rw [text, hs, scanFrom_nameChars (hs ▸ hall) (hP c (by simp [text, hs])) hrest]
    simp [opened, hroot, hs]
  | operator op =>
    cases op
    case choose => exact ⟨P.close done, rfl,
        scanFrom_nameChars (show ['C'].all nameChar = true by decide) (hP 'C' rfl) hrest done⟩
    case arrange => exact ⟨P.close done, rfl,
        scanFrom_nameChars (show ['P'].all nameChar = true by decide) (hP 'P' rfl) hrest done⟩
    all_goals exact scanFrom_alone rfl (by decide) (by decide) rfl hP hfollow done
  | openParen => exact scanFrom_alone rfl (by decide) (by decide) rfl hP hfollow done
  | closeParen => exact scanFrom_alone rfl (by decide) (by decide) rfl hP hfollow done
  | constant k =>
    cases k
    case pi => exact scanFrom_alone rfl (by decide) (by decide) rfl hP hfollow done
    case e => exact ⟨P.close done, rfl,
        scanFrom_nameChars (show ['e'].all nameChar = true by decide) (hP 'e' rfl) hrest done⟩

theorem format_singleton (t : Token) : format [t] = t.text := by
  simp [format]

theorem toList_format_cons_cons (t u : Token) (us : List Token) :
    (format (t :: u :: us)).toList = t.text.toList ++ ' ' :: (format (u :: us)).toList := by
  simp [format]

theorem scanFrom_format {ts : List Token} (hts : Rereadable ts) (P : Pending) (done : List Token)
    (hP : ∀ t ∈ ts.head?, ∀ c ∈ t.text.toList.head?, P.takes c [] = false) :
    scanFrom (format ts).toList P done = .ok ((P.close done).reverse ++ ts) := by
  induction ts generalizing P done with
  | nil => simp [format, scanFrom]
  | cons t us ih =>
    obtain ⟨hscanned, hchain⟩ := hts
    cases us with
    | nil =>
      obtain ⟨done', hclose, hscan⟩ :=
        scanFrom_text (hscanned t (by simp)) (hP t rfl) [] (by simp) done
      rw [format_singleton, ← List.append_nil t.text.toList, hscan, scanFrom, hclose]
      simp
    | cons u us =>
      obtain ⟨hsep, hchain'⟩ := List.isChain_cons_cons.mp hchain
      have hblank : Text.isBlank ' ' = true := by decide
      obtain ⟨done', hclose, hscan⟩ := scanFrom_text (hscanned t (by simp)) (hP t rfl)
        (' ' :: (format (u :: us)).toList) (by simpa using hblank) done
      rw [toList_format_cons_cons, hscan, scanFrom_blank hblank,
        ih ⟨fun x hx => hscanned x (List.mem_cons_of_mem t hx), hchain'⟩ t.opened done'
          (fun x hx => by cases hx; exact hsep),
        hclose]
      simp

theorem scan_format {ts : List Token} (hts : Rereadable ts) : scan (format ts) = .ok ts := by
  rw [scan, scanFrom_format hts .empty [] (fun _ _ _ _ => rfl)]
  rfl

/-! ### What the scanner gives -/

theorem single?_scanned {c : Char} {t : Token} (h : single? c = some t) :
    t.Scanned ∧ t.opened = .empty ∧ t.text.toList = [c] := by
  unfold single? at h
  split_ifs at h with h1 h2 h3 h4 <;> try (cases h; subst_vars; exact ⟨trivial, rfl, rfl⟩)
  · cases h
    subst h4
    exact ⟨.inl rfl, rfl, rfl⟩
  · obtain ⟨op, hop, rfl⟩ := Option.map_eq_some_iff.mp h
    unfold Operator.ofSymbol? at hop
    split at hop <;> cases hop <;> exact ⟨trivial, rfl, rfl⟩

theorem start_cases {c : Char} {Q : Pending} {emitted : List Token} (hb : Text.isBlank c = false)
    (hs : start c = some (Q, emitted)) :
    (Q = .number [c] ∧ emitted = [] ∧ (c.isDigit || c == '.') = true) ∨
      (Q = .name [c] ∧ emitted = [] ∧ nameChar c = true) ∨
      (Q = .empty ∧
        ∃ t, emitted = [t] ∧ t.Scanned ∧ t.opened = .empty ∧ t.text.toList = [c]) := by
  unfold start at hs
  by_cases hd : (c.isDigit || c == '.') = true
  · simp only [hd, if_true, Option.some.injEq, Prod.mk.injEq] at hs
    exact .inl ⟨hs.1.symm, hs.2.symm, hd⟩
  rw [if_neg hd] at hs
  cases hsingle : single? c with
  | some t =>
    simp only [hsingle, Option.some.injEq, Prod.mk.injEq] at hs
    obtain ⟨rfl, rfl⟩ := hs
    exact .inr (.inr ⟨rfl, t, rfl, single?_scanned hsingle⟩)
  | none =>
    by_cases hl : Text.isLetter c = true
    · simp only [hsingle, hl, if_true, Option.some.injEq, Prod.mk.injEq] at hs
      obtain ⟨rfl, rfl⟩ := hs
      exact .inr (.inl ⟨rfl, rfl, by simp_all [nameChar]⟩)
    · simp [hsingle, hl] at hs

def Opening : Pending → List Token → List Char → Prop
  | .empty, done, _ => ∀ a ∈ done.head?, a.opened = .empty
  | .number r, done, rest => ∃ c tail, r = (c :: tail).reverse ∧ (c.isDigit || c == '.') = true ∧
      (Pending.number [c]).takesAll tail rest = true ∧ ∀ a ∈ done.head?, a.opened.takes c [] = false
  | .name r, done, _ => ∃ c tail, r = (c :: tail).reverse ∧ (c :: tail).all nameChar = true ∧
      ∀ a ∈ done.head?, a.opened.takes c [] = false

structure Reading (P : Pending) (done : List Token) (rest : List Char) : Prop where
  scanned : ∀ t ∈ done, t.Scanned
  apart : done.IsChain fun b a => Separate a b
  opening : Opening P done rest

namespace Reading

variable {P : Pending} {done : List Token}

/-- The open token closed onto the tokens done, once its characters are judged on it alone: the
token closed is read back from its text and kept apart from the one before, and it takes no
character that the open token did not. -/
theorem close {rest : List Char} (h : Reading P done rest) (hopen : Opening P done []) :
    (∀ t ∈ P.close done, t.Scanned) ∧ (P.close done).IsChain (fun b a => Separate a b) ∧
      ∀ a ∈ (P.close done).head?, ∀ x, P.takes x [] = false →
        a.opened.takes x [] = false := by
  cases P with
  | empty =>
    refine ⟨h.scanned, h.apart, fun a ha x _ => ?_⟩
    rw [hopen a ha]
    rfl
  | number r =>
    obtain ⟨c, tail, rfl, hc, hall, hapart⟩ := hopen
    have hclose : (Pending.number (c :: tail).reverse).close done =
        number (String.ofList (c :: tail)) :: done := by
      rw [Pending.close, List.reverse_reverse]
    rw [hclose]
    refine ⟨List.forall_mem_cons.mpr
        ⟨⟨c, tail, String.toList_ofList, hc, hall⟩, h.scanned⟩,
      h.apart.cons fun a ha x hx => ?_, fun a ha x hx => ?_⟩
    · simp only [text, String.toList_ofList, List.head?_cons, Option.mem_def,
        Option.some.injEq] at hx
      exact hx ▸ hapart a ha
    · simp only [List.head?_cons, Option.mem_def, Option.some.injEq] at ha
      subst ha
      simpa [opened] using hx
  | name r =>
    obtain ⟨c, tail, rfl, hall, hapart⟩ := hopen
    have hclose : (Pending.name (c :: tail).reverse).close done =
        ofName (String.ofList (c :: tail)) :: done := by
      rw [Pending.close, List.reverse_reverse]
    obtain ⟨hscanned, hopened⟩ := ofName_scanned (s := String.ofList (c :: tail))
      (by rw [String.toList_ofList]; exact List.cons_ne_nil c tail)
      (by rw [String.toList_ofList]; exact hall)
    rw [hclose]
    refine ⟨List.forall_mem_cons.mpr ⟨hscanned, h.scanned⟩,
      h.apart.cons fun a ha x hx => ?_, fun a ha x hx => ?_⟩
    · rw [text_ofName, String.toList_ofList, List.head?_cons, Option.mem_def,
        Option.some.injEq] at hx
      exact hx ▸ hapart a ha
    · simp only [List.head?_cons, Option.mem_def, Option.some.injEq] at ha
      subst ha
      rwa [hopened, String.toList_ofList]

theorem init (cs : List Char) : Reading .empty [] cs :=
  ⟨by simp, .nil, by simp [Opening]⟩

theorem skip {b : Char} {rest : List Char} (h : Reading P done (b :: rest))
    (hb : Text.isBlank b = true) : Reading P done rest := by
  refine ⟨h.scanned, h.apart, ?_⟩
  have hopen := h.opening
  cases P with
  | empty => exact hopen
  | number r =>
    obtain ⟨c, tail, hr, hc, hall, hapart⟩ := hopen
    rw [Pending.takesAll_blank hb] at hall
    exact ⟨c, tail, hr, hc, Pending.takesAll_of_nil hall rest, hapart⟩
  | name r => exact hopen

theorem take {c : Char} {rest : List Char} (h : Reading P done (c :: rest))
    (hc : P.takes c rest = true) : Reading (P.push c) done rest := by
  refine ⟨h.scanned, h.apart, ?_⟩
  have hopen := h.opening
  cases P with
  | empty => cases hc
  | number r =>
    obtain ⟨c₀, tail, rfl, hc₀, hall, hapart⟩ := hopen
    refine ⟨c₀, tail ++ [c], by simp, hc₀, ?_, hapart⟩
    rw [Pending.takesAll_snoc, hall, Pending.pushAll_number]
    simpa using hc
  | name r =>
    obtain ⟨c₀, tail, rfl, hall, hapart⟩ := hopen
    refine ⟨c₀, tail ++ [c], by simp, ?_, hapart⟩
    simp only [Pending.takes] at hc
    simp_all

theorem opening_nil {c : Char} {more : List Char} (h : Reading P done (c :: more))
    (hc : P.takes c more = false) : Opening P done [] := by
  have hopen := h.opening
  cases P with
  | empty => exact hopen
  | number r =>
    obtain ⟨c₀, tail, rfl, hc₀, hall, hapart⟩ := hopen
    exact ⟨c₀, tail, rfl, hc₀, Pending.takesAll_close hall (by simpa using hc), hapart⟩
  | name r => exact hopen

theorem start {c : Char} {rest : List Char} (h : Reading P done (c :: rest))
    (hb : Text.isBlank c = false) (hc : P.takes c rest = false) {Q : Pending}
    {emitted : List Token} (hs : start c = some (Q, emitted)) :
    Reading Q (emitted ++ P.close done) rest := by
  obtain ⟨hscanned, hapart, hnewest⟩ := h.close (h.opening_nil hc)
  have hsep : ∀ a ∈ (P.close done).head?, a.opened.takes c [] = false := fun a ha =>
    hnewest a ha c (Bool.eq_false_iff.mpr fun hP => by
      rw [takes_mono (fun _ hf => absurd hf (by decide)) hP] at hc
      cases hc)
  rcases start_cases hb hs with
    ⟨rfl, rfl, hd⟩ | ⟨rfl, rfl, hn⟩ | ⟨rfl, t, rfl, ht, hopen, htext⟩
  · exact ⟨hscanned, hapart, c, [], rfl, hd, rfl, hsep⟩
  · exact ⟨hscanned, hapart, c, [], rfl, by simpa using hn, hsep⟩
  · refine ⟨List.forall_mem_cons.mpr ⟨ht, hscanned⟩, hapart.cons fun a ha x hx => ?_,
      fun a ha => ?_⟩
    · rw [htext, List.head?_cons, Option.mem_def, Option.some.injEq] at hx
      exact hx ▸ hsep a ha
    · simp only [List.singleton_append, List.head?_cons, Option.mem_def,
        Option.some.injEq] at ha
      exact ha ▸ hopen

theorem finish (h : Reading P done []) : Rereadable (P.close done).reverse := by
  obtain ⟨hscanned, hapart, -⟩ := h.close h.opening
  exact ⟨fun t ht => hscanned t (List.mem_reverse.mp ht), List.isChain_reverse.mpr hapart⟩

end Reading

theorem Reading.scanFrom {cs : List Char} {P : Pending} {done : List Token}
    (h : Reading P done cs) {ts : List Token} (hscan : scanFrom cs P done = .ok ts) :
    Rereadable ts := by
  induction cs generalizing P done with
  | nil =>
    rw [Token.scanFrom] at hscan
    cases hscan
    exact h.finish
  | cons c rest ih =>
    by_cases hb : Text.isBlank c = true
    · rw [scanFrom_blank hb] at hscan
      exact ih (h.skip hb) hscan
    rw [Bool.not_eq_true] at hb
    cases hc : P.takes c rest
    · cases hs : Token.start c with
      | none =>
        rw [scanFrom_refuse hb hc hs] at hscan
        cases hscan
      | some next =>
        obtain ⟨Q, emitted⟩ := next
        rw [scanFrom_start hb hc hs] at hscan
        exact ih (h.start hb hc hs) hscan
    · rw [scanFrom_takes hc] at hscan
      exact ih (h.take hc) hscan

theorem rereadable_of_scan {s : String} {ts : List Token} (h : scan s = .ok ts) : Rereadable ts :=
  (Reading.init s.toList).scanFrom h

/-- Scanning the formatted tokens of a text gives the same tokens: writing them with one blank
between them and scanning again gives them back. -/
theorem scan_format_of_scan {s : String} {ts : List Token} (h : scan s = .ok ts) :
    scan (format ts) = .ok ts :=
  scan_format (rereadable_of_scan h)

/-- `1 2e+5e x(3C2)`: the blank inside `12e+5` does not close it, the `e` after it begins the
name `ex`, and `C` is the operator; the tokens, written one blank apart as
`12e+5 ex ( 3 C 2 )`, are read back. -/
theorem scan_format_joined_tokens :
    scan "1 2e+5e x(3C2)" = .ok [number "12e+5", name "ex", openParen, number "3",
        operator .choose, number "2", closeParen] ∧
      scan (format [number "12e+5", name "ex", openParen, number "3", operator .choose,
        number "2", closeParen]) = .ok [number "12e+5", name "ex", openParen, number "3",
        operator .choose, number "2", closeParen] := by
  have h : scan "1 2e+5e x(3C2)" = .ok [number "12e+5", name "ex", openParen, number "3",
      operator .choose, number "2", closeParen] := by decide
  exact ⟨h, scan_format_of_scan h⟩

end Token

end Calculator
