import Mathlib.Data.Option.Basic
import PointerAnalysis.Json.Parse
import PointerAnalysis.Json.Render

/-!
Reading what was written. A value is read back from its written form, whatever follows it, as long
as what follows cannot belong to a number. Only numbers that are kept as they are written are left
aside: nothing says that such a text is a number at all.
-/

namespace PointerAnalysis.Json

/-! ## Literals -/

theorem hexValue_hexDigit : ∀ n < 16, hexValue (hexDigit n) = some n := by
  decide

theorem assemble_char (c : Char) (ps : List Piece) :
    assemble (.char c :: ps) = (assemble ps).map (c :: ·) := by
  simp [assemble, Option.map_eq_bind]

theorem assemble_unit {u : Nat} (h : u < 0xD800) (ps : List Piece) :
    assemble (.unit u :: ps) = (assemble ps).map (Char.ofNat u :: ·) := by
  have hhigh : isHigh u = false := by simp [isHigh]; omega
  have hlow : isLow u = false := by simp [isLow]; omega
  cases ps with
  | nil => simp [assemble, hhigh, hlow]
  | cons p ps =>
      cases p with
      | char c => simp [assemble, hhigh, hlow, Option.map_eq_bind]
      | unit v => simp [assemble, hhigh, hlow, Option.map_eq_bind]

section pieces

variable {rest tail : List Char} {ps : List Piece} (h : pieces rest = some (ps, tail))

include h

theorem pieces_unescape {e c : Char} (he : unescape e = some c) :
    pieces ('\\' :: e :: rest) = some (.char c :: ps, tail) := by
  have hu : e ≠ 'u' := by
    rintro rfl
    simp [unescape] at he
  simp [pieces, hu, he, h]

theorem pieces_unit {a b c d : Char} {u : Nat} (hu : unitOfDigits a b c d = some u) :
    pieces ('\\' :: 'u' :: a :: b :: c :: d :: rest) = some (.unit u :: ps, tail) := by
  simp [pieces, hu, h]

theorem pieces_plain {c : Char} (hquote : c ≠ '"') (hslash : c ≠ '\\') (hcontrol : 32 ≤ c.toNat) :
    pieces (c :: rest) = some (.char c :: ps, tail) := by
  rw [pieces.eq_def]
  split <;> simp_all [guard]

/-- An escaped character is read as one piece, which stands for the character. -/
theorem pieces_escape (c : Char) :
    ∃ p, pieces (escape c ++ rest) = some (p :: ps, tail) ∧
      ∀ qs, assemble (p :: qs) = (assemble qs).map (c :: ·) := by
  have hshort : ∀ e, unescape e = some c → escape c = ['\\', e] →
      ∃ p, pieces (escape c ++ rest) = some (p :: ps, tail) ∧
        ∀ qs, assemble (p :: qs) = (assemble qs).map (c :: ·) := fun e he heq =>
    ⟨.char c, by rw [heq]; exact pieces_unescape h he, assemble_char c⟩
  by_cases hquote : c = '"'
  · exact hshort '"' (by simp [unescape, hquote]) (by simp [escape, hquote])
  by_cases hslash : c = '\\'
  · exact hshort '\\' (by simp [unescape, hslash]) (by simp [escape, hslash])
  by_cases hback : c = '\x08'
  · exact hshort 'b' (by simp [unescape, hback]) (by simp [escape, hback])
  by_cases htab : c = '\t'
  · exact hshort 't' (by simp [unescape, htab]) (by simp [escape, htab])
  by_cases hline : c = '\n'
  · exact hshort 'n' (by simp [unescape, hline]) (by simp [escape, hline])
  by_cases hfeed : c = '\x0c'
  · exact hshort 'f' (by simp [unescape, hfeed]) (by simp [escape, hfeed])
  by_cases hreturn : c = '\r'
  · exact hshort 'r' (by simp [unescape, hreturn]) (by simp [escape, hreturn])
  by_cases hcontrol : c.toNat < 32
  · -- a control character without a short form is written as its number
    have hunit : unitOfDigits '0' '0' (hexDigit (c.toNat / 16)) (hexDigit (c.toNat % 16)) =
        some c.toNat := by
      have hzero : hexValue '0' = some 0 := by decide
      have hhigh := hexValue_hexDigit (c.toNat / 16) (by omega)
      have hlow := hexValue_hexDigit (c.toNat % 16) (by omega)
      simp only [unitOfDigits, hzero, hhigh, hlow, Option.bind_eq_bind, Option.bind_some,
        Option.pure_def, Option.some.injEq]
      omega
    refine ⟨.unit c.toNat, ?_, fun qs => ?_⟩
    · simpa [escape, hquote, hslash, hback, htab, hline, hfeed, hreturn, hcontrol] using
        pieces_unit h hunit
    · rw [assemble_unit (by omega), Char.ofNat_toNat]
  · refine ⟨.char c, ?_, assemble_char c⟩
    simpa [escape, hquote, hslash, hback, htab, hline, hfeed, hreturn, hcontrol] using
      pieces_plain h hquote hslash (by omega)

end pieces

theorem pieces_escaped (cs rest : List Char) :
    ∃ ps, pieces (cs.flatMap escape ++ '"' :: rest) = some (ps, rest) ∧ assemble ps = some cs := by
  induction cs with
  | nil => exact ⟨[], by simp [pieces], rfl⟩
  | cons c cs ih =>
      obtain ⟨ps, hps, hcs⟩ := ih
      obtain ⟨p, hp, hassemble⟩ := pieces_escape hps c
      exact ⟨p :: ps, by simpa using hp, by rw [hassemble, hcs]; rfl⟩

/-- A string is read back from its literal. -/
theorem unquote_stringChars (s : Option String) (rest : List Char) :
    ∃ body, stringChars s ++ rest = '"' :: body ∧ unquote body = some (s, rest) := by
  cases s with
  | none =>
      refine ⟨['\\', 'u', 'd', '8', '0', '0', '"'] ++ rest, rfl, ?_⟩
      have hunit : unitOfDigits 'd' '8' '0' '0' = some 0xD800 := by decide
      have hend : pieces ('"' :: rest) = some ([], rest) := by simp [pieces]
      simp [unquote, pieces_unit hend hunit, assemble, isHigh]
  | some s =>
      obtain ⟨ps, hps, hassemble⟩ := pieces_escaped s.toList rest
      refine ⟨s.toList.flatMap escape ++ '"' :: rest, by simp [stringChars, quote], ?_⟩
      simp [unquote, hps, hassemble]

/-! ## Numbers -/

/-- What follows a value inside another one, or at the end of a text. -/
def Ends (rest : List Char) : Prop := ∀ c ∈ rest.head?, c = ',' ∨ c = ']' ∨ c = '}'

theorem ends_nil : Ends [] := by
  simp [Ends]

theorem digits_append {ds rest : List Char} (hds : ∀ d ∈ ds, d.isDigit) (hne : ds ≠ [])
    (hrest : Ends rest) : digits (ds ++ rest) = some (ds, rest) := by
  have hstop : rest.takeWhile Char.isDigit = [] ∧ rest.dropWhile Char.isDigit = rest := by
    cases rest with
    | nil => simp
    | cons c rest =>
        have hc : c.isDigit = false := by
          rcases hrest c rfl with rfl | rfl | rfl <;> decide
        simp [hc]
  have htake : (ds ++ rest).takeWhile Char.isDigit = ds := by
    rw [List.takeWhile_append_of_pos hds, hstop.1, List.append_nil]
  have hdrop : (ds ++ rest).dropWhile Char.isDigit = rest := by
    rw [List.dropWhile_append_of_pos hds, hstop.2]
  rw [digits, htake, hdrop]
  split
  · exact absurd rfl hne
  · rfl

theorem digitsValue_toDigits (n : Nat) : digitsValue (Nat.toDigits 10 n) = n := by
  have h := Nat.ofDigitChars_ten_toDigits (n := n)
  rwa [Nat.ofDigitChars_eq_foldl] at h

/-- A number starts with a digit. -/
theorem exists_toDigits_eq_cons (n : Nat) :
    ∃ d ds, Nat.toDigits 10 n = d :: ds ∧ d.isDigit := by
  obtain ⟨d, ds, hds⟩ := List.exists_cons_of_ne_nil (Nat.toDigits_ne_nil (n := n) (b := 10))
  have hmem : d ∈ Nat.toDigits 10 n := hds ▸ List.mem_cons_self
  exact ⟨d, ds, hds, Nat.isDigit_of_mem_toDigits (by decide) (by decide) hmem⟩

/-- No number but zero is written with a zero in front. -/
theorem head?_toDigits {n : Nat} (h : n ≠ 0) : (Nat.toDigits 10 n).head? ≠ some '0' := by
  induction n using Nat.strongRecOn with
  | ind n ih =>
      rw [Nat.toDigits_eq_if (by decide)]
      split
      · simpa [Nat.digitChar_eq_zero] using h
      · have hfirst := ih (n / 10) (by omega) (by omega)
        obtain ⟨d, ds, hds, -⟩ := exists_toDigits_eq_cons (n / 10)
        simpa [hds] using hfirst

theorem wholePart_toDigits (n : Nat) {rest : List Char} (hrest : Ends rest) :
    wholePart (Nat.toDigits 10 n ++ rest) = some (Nat.toDigits 10 n, rest) := by
  have hdigits := digits_append (fun d hd => Nat.isDigit_of_mem_toDigits (by decide) (by decide) hd)
    (Nat.toDigits_ne_nil (n := n) (b := 10)) hrest
  have hzero : Nat.toDigits 10 n = ['0'] ∨ (Nat.toDigits 10 n).head? ≠ some '0' := by
    by_cases hn : n = 0
    · exact .inl (by rw [hn, Nat.toDigits_zero])
    · exact .inr (head?_toDigits hn)
  simp [wholePart, hdigits, hzero, guard]

theorem fraction_of_ends {rest : List Char} (hrest : Ends rest) :
    fraction rest = some ([], rest) := by
  unfold fraction
  split
  · have hdot := hrest '.' rfl
    simp at hdot
  · rfl

theorem exponent_of_ends {rest : List Char} (hrest : Ends rest) :
    exponent rest = some ([], rest) := by
  cases rest with
  | nil => rfl
  | cons c rest =>
      have hc : ¬ (c = 'e' ∨ c = 'E') := by
        rcases hrest c rfl with rfl | rfl | rfl <;> decide
      rw [exponent, if_neg hc]

theorem numberLiteral_toDigits (n : Nat) {rest : List Char} (hrest : Ends rest) :
    numberLiteral (Nat.toDigits 10 n ++ rest) = some (.natural n, rest) := by
  have hwhole := wholePart_toDigits n hrest
  have hvalue := digitsValue_toDigits n
  obtain ⟨d, ds, hds, hd⟩ := exists_toDigits_eq_cons n
  have hminus : d ≠ '-' := by
    rintro rfl
    simp at hd
  rw [hds] at hwhole hvalue ⊢
  unfold numberLiteral
  simp only [List.cons_append] at hwhole ⊢
  simp [hminus, hwhole, fraction_of_ends hrest, exponent_of_ends hrest, hvalue]

/-! ## Values -/

/-- A value all of whose numbers are written as digits only. -/
inductive Plain : Json → Prop where
  | null : Plain .null
  | bool (b : Bool) : Plain (.bool b)
  | natural (n : Nat) : Plain (.natural n)
  | string (s : Option String) : Plain (.string s)
  | array (items : List Json) (h : ∀ v ∈ items, Plain v) : Plain (.array items)
  | object (members : List (Option String × Json)) (h : ∀ m ∈ members, Plain m.2) :
      Plain (.object members)

/-- A value is read back from its written form, if there is fuel for every character of it. -/
def ReadsBack (j : Json) : Prop :=
  ∀ fuel rest, (chars j).length ≤ fuel → Ends rest → value fuel (chars j ++ rest) = some (j, rest)

theorem chars_natural (n : Nat) : chars (.natural n) = Nat.toDigits 10 n := by
  rw [chars, Nat.repr_eq_ofList_toDigits, String.toList_ofList]

/-- No value starts with a blank or with a closing bracket. -/
theorem Plain.exists_chars_eq_cons {j : Json} (h : Plain j) :
    ∃ c cs, chars j = c :: cs ∧ isBlank c = false ∧ c ≠ ']' := by
  cases h with
  | null => exact ⟨_, _, rfl, by decide, by decide⟩
  | bool b => cases b <;> exact ⟨_, _, rfl, by decide, by decide⟩
  | natural n =>
      obtain ⟨d, ds, hds, hd⟩ := exists_toDigits_eq_cons n
      refine ⟨d, ds, by rw [chars_natural, hds], ?_, ?_⟩
      · rw [← Bool.not_eq_true]
        intro hblank
        simp only [isBlank, Bool.or_eq_true, beq_iff_eq] at hblank
        rcases hblank with ((rfl | rfl) | rfl) | rfl <;> simp at hd
      · rintro rfl
        simp at hd
  | string s =>
      obtain ⟨body, hbody, -⟩ := unquote_stringChars s []
      rw [List.append_nil] at hbody
      exact ⟨'"', body, by rw [chars, hbody], by decide, by decide⟩
  | array items => exact ⟨_, _, rfl, by decide, by decide⟩
  | object members => exact ⟨_, _, rfl, by decide, by decide⟩

theorem skipBlanks_cons {c : Char} {cs : List Char} (h : isBlank c = false) :
    skipBlanks (c :: cs) = c :: cs := by
  simp [skipBlanks, h]

theorem value_of_isDigit {d : Char} (hd : d.isDigit) (fuel : Nat) (cs : List Char) :
    value (fuel + 1) (d :: cs) = numberLiteral (d :: cs) := by
  rw [value.eq_def]
  split <;> simp_all

theorem value_natural (n fuel : Nat) {rest : List Char} (hrest : Ends rest) :
    value (fuel + 1) (chars (.natural n) ++ rest) = some (.natural n, rest) := by
  have hnumber := numberLiteral_toDigits n hrest
  obtain ⟨d, ds, hds, hd⟩ := exists_toDigits_eq_cons n
  rw [chars_natural]
  rw [hds] at hnumber ⊢
  exact (value_of_isDigit hd fuel _).trans hnumber

theorem value_string (s : Option String) (fuel : Nat) (rest : List Char) :
    value (fuel + 1) (chars (.string s) ++ rest) = some (.string s, rest) := by
  obtain ⟨body, hbody, hunquote⟩ := unquote_stringChars s rest
  rw [chars, hbody]
  simp [value, hunquote]

theorem itemChars_cons_cons (v w : Json) (ws : List Json) :
    itemChars (v :: w :: ws) = chars v ++ ',' :: itemChars (w :: ws) := by
  rw [itemChars]
  simp

theorem memberChars_cons_cons (k : Option String) (v : Json) (m : Option String × Json)
    (ms : List (Option String × Json)) :
    memberChars ((k, v) :: m :: ms) =
      stringChars k ++ ':' :: chars v ++ ',' :: memberChars (m :: ms) := by
  rw [memberChars]
  simp

theorem exists_itemChars_eq_cons {v : Json} (hv : Plain v) (vs : List Json) :
    ∃ c cs, itemChars (v :: vs) = c :: cs ∧ isBlank c = false ∧ c ≠ ']' := by
  obtain ⟨c, cs, hc, hblank, hbracket⟩ := hv.exists_chars_eq_cons
  cases vs with
  | nil => exact ⟨c, cs ++ [']'], by simp [itemChars, hc], hblank, hbracket⟩
  | cons w ws =>
      exact ⟨c,
        cs ++ ',' :: itemChars (w :: ws), by simp [itemChars_cons_cons, hc], hblank, hbracket⟩

theorem exists_memberChars_eq_cons (m : Option String × Json) (ms : List (Option String × Json)) :
    ∃ cs, memberChars (m :: ms) = '"' :: cs := by
  obtain ⟨k, v⟩ := m
  obtain ⟨body, hbody, -⟩ := unquote_stringChars k []
  rw [List.append_nil] at hbody
  cases ms with
  | nil => exact ⟨body ++ ':' :: chars v ++ ['}'], by simp [memberChars, hbody]⟩
  | cons m ms =>
      exact ⟨body ++ ':' :: chars v ++ ',' :: memberChars (m :: ms),
        by simp [memberChars_cons_cons, hbody]⟩

/-- The items of an array are read back one after the other. -/
theorem items_itemChars (vs : List Json) (hne : vs ≠ []) (hplain : ∀ v ∈ vs, Plain v)
    (hreads : ∀ v ∈ vs, ReadsBack v) (fuel : Nat) (rest : List Char)
    (hfuel : (itemChars vs).length ≤ fuel) :
    items fuel (itemChars vs ++ rest) = some (vs, rest) := by
  induction vs generalizing fuel with
  | nil => exact absurd rfl hne
  | cons v vs ih =>
      have hv := hreads v List.mem_cons_self
      cases fuel with
      | zero => cases vs <;> simp [itemChars] at hfuel
      | succ fuel =>
          cases vs with
          | nil =>
              have hlen : (chars v).length ≤ fuel := by simpa [itemChars] using hfuel
              have hvalue := hv fuel (']' :: rest) hlen (by simp [Ends])
              simp [itemChars, items, hvalue, skipBlanks_cons (c := ']') (by decide)]
          | cons w ws =>
              rw [itemChars_cons_cons, List.length_append, List.length_cons] at hfuel
              have hvalue :=
                hv fuel (',' :: (itemChars (w :: ws) ++ rest)) (by omega) (by simp [Ends])
              have hrest := ih (by simp) (fun x hx => hplain x (List.mem_cons_of_mem v hx))
                (fun x hx => hreads x (List.mem_cons_of_mem v hx)) fuel (by omega)
              obtain ⟨c, cs, hc, hblank, -⟩ := exists_itemChars_eq_cons (hplain w (by simp)) ws
              rw [itemChars_cons_cons]
              rw [hc] at hvalue hrest ⊢
              simp only [List.append_assoc, List.cons_append] at hvalue hrest ⊢
              simp [items, hvalue,
                skipBlanks_cons (c := ',') (by decide), skipBlanks_cons hblank, hrest]

/-- The members of an object are read back one after the other. -/
theorem members_memberChars (ms : List (Option String × Json)) (hne : ms ≠ [])
    (hplain : ∀ m ∈ ms, Plain m.2) (hreads : ∀ m ∈ ms, ReadsBack m.2) (fuel : Nat)
    (rest : List Char) (hfuel : (memberChars ms).length ≤ fuel) :
    members fuel (memberChars ms ++ rest) = some (ms, rest) := by
  induction ms generalizing fuel with
  | nil => exact absurd rfl hne
  | cons m ms ih =>
      obtain ⟨k, v⟩ := m
      have hv : ReadsBack v := hreads (k, v) List.mem_cons_self
      have hplainv : Plain v := hplain (k, v) List.mem_cons_self
      obtain ⟨c, cs, hc, hblank, -⟩ := hplainv.exists_chars_eq_cons
      cases fuel with
      | zero => cases ms <;> simp [memberChars] at hfuel
      | succ fuel =>
          cases ms with
          | nil =>
              simp only [memberChars, List.length_append, List.length_cons] at hfuel
              have hvalue := hv fuel ('}' :: rest) (by omega) (by simp [Ends])
              obtain ⟨body, hbody, hunquote⟩ :=
                unquote_stringChars k (':' :: (chars v ++ '}' :: rest))
              have htext : memberChars [(k, v)] ++ rest = '"' :: body := by
                simp [memberChars, ← hbody]
              rw [htext]
              rw [hc] at hvalue hunquote
              simp only [List.cons_append] at hvalue hunquote
              simp [members, hunquote, hvalue, skipBlanks_cons (c := ':') (by decide),
                skipBlanks_cons hblank, skipBlanks_cons (c := '}') (by decide)]
          | cons m ms =>
              simp only [memberChars_cons_cons, List.length_append, List.length_cons] at hfuel
              have hvalue :=
                hv fuel (',' :: (memberChars (m :: ms) ++ rest)) (by omega) (by simp [Ends])
              have hrest := ih (by simp) (fun x hx => hplain x (List.mem_cons_of_mem _ hx))
                (fun x hx => hreads x (List.mem_cons_of_mem _ hx)) fuel (by omega)
              obtain ⟨body, hbody, hunquote⟩ := unquote_stringChars k
                (':' :: (chars v ++ ',' :: (memberChars (m :: ms) ++ rest)))
              have htext : memberChars ((k, v) :: m :: ms) ++ rest = '"' :: body := by
                simp [memberChars_cons_cons, ← hbody]
              obtain ⟨next, hnext⟩ := exists_memberChars_eq_cons m ms
              rw [htext]
              rw [hnext] at hvalue hrest hunquote
              rw [hc] at hvalue hunquote
              simp only [List.cons_append] at hvalue hrest hunquote
              simp [members, hunquote, hvalue, hrest, skipBlanks_cons (c := ':') (by decide),
                skipBlanks_cons hblank, skipBlanks_cons (c := ',') (by decide),
                skipBlanks_cons (c := '"') (by decide)]

theorem value_array {vs : List Json} (hplain : ∀ v ∈ vs, Plain v) (hreads : ∀ v ∈ vs, ReadsBack v)
    {fuel : Nat} (hfuel : (chars (.array vs)).length ≤ fuel + 1) (rest : List Char) :
    value (fuel + 1) (chars (.array vs) ++ rest) = some (.array vs, rest) := by
  cases vs with
  | nil => simp [chars, itemChars, value, skipBlanks_cons (c := ']') (by decide)]
  | cons v vs =>
      have hitems :=
        items_itemChars (v :: vs) (by simp) hplain hreads fuel rest (by simpa [chars] using hfuel)
      obtain ⟨c, cs, hc, hblank, hbracket⟩ :=
        exists_itemChars_eq_cons (hplain v List.mem_cons_self) vs
      rw [chars]
      rw [hc] at hitems ⊢
      simp only [List.cons_append] at hitems ⊢
      simp [value, skipBlanks_cons hblank, hbracket, hitems]

theorem value_object {ms : List (Option String × Json)} (hplain : ∀ m ∈ ms, Plain m.2)
    (hreads : ∀ m ∈ ms, ReadsBack m.2) {fuel : Nat}
    (hfuel : (chars (.object ms)).length ≤ fuel + 1) (rest : List Char) :
    value (fuel + 1) (chars (.object ms) ++ rest) = some (.object ms, rest) := by
  cases ms with
  | nil => simp [chars, memberChars, value, skipBlanks_cons (c := '}') (by decide)]
  | cons m ms =>
      have hmembers := members_memberChars (m :: ms) (by simp) hplain hreads fuel rest
        (by simpa [chars] using hfuel)
      obtain ⟨cs, hcs⟩ := exists_memberChars_eq_cons m ms
      rw [chars]
      rw [hcs] at hmembers ⊢
      simp only [List.cons_append] at hmembers ⊢
      simp [value, skipBlanks_cons (c := '"') (by decide), hmembers]

/-- One unit of fuel is always left, since no value is written as nothing. -/
theorem ReadsBack.of_succ {j : Json} (h : Plain j)
    (hvalue : ∀ fuel rest, (chars j).length ≤ fuel + 1 → Ends rest →
      value (fuel + 1) (chars j ++ rest) = some (j, rest)) : ReadsBack j := by
  intro fuel rest hfuel hrest
  obtain ⟨c, cs, hc, -⟩ := h.exists_chars_eq_cons
  have hpos : 0 < (chars j).length := by simp [hc]
  obtain ⟨fuel, rfl⟩ := Nat.exists_eq_succ_of_ne_zero (by omega : fuel ≠ 0)
  exact hvalue fuel rest hfuel hrest

theorem Plain.readsBack {j : Json} (h : Plain j) : ReadsBack j := by
  induction h with
  | null => exact .of_succ .null fun fuel rest _ _ => by simp [chars, value]
  | bool b =>
      exact .of_succ (.bool b) fun fuel rest _ _ => by cases b <;> simp [chars, value]
  | natural n =>
      exact .of_succ (.natural n) fun fuel rest _ hrest => value_natural n fuel hrest
  | string s => exact .of_succ (.string s) fun fuel rest _ _ => value_string s fuel rest
  | array vs hplain ih =>
      exact .of_succ (.array vs hplain) fun fuel rest hfuel _ =>
        value_array hplain ih hfuel rest
  | object ms hplain ih =>
      exact .of_succ (.object ms hplain) fun fuel rest hfuel _ =>
        value_object hplain ih hfuel rest

/-- What is written is read back. -/
theorem parse_render {j : Json} (h : Plain j) : parse (render j) = some j := by
  obtain ⟨c, cs, hc, hblank, -⟩ := h.exists_chars_eq_cons
  have hvalue := h.readsBack (2 * (chars j).length + 1) [] (by omega) ends_nil
  rw [List.append_nil] at hvalue
  have hskip : skipBlanks (chars j) = chars j := by rw [hc, skipBlanks_cons hblank]
  have hend : skipBlanks [] = [] := rfl
  simp [parse, render, hskip, hvalue, hend, guard]

end PointerAnalysis.Json
