import Mathlib.Data.List.Basic
import VbOutline.Files.Script

/-! What is read from a file. The bytes of a text are read as that text, whatever characters it has. Of the text
that is read, the lines up to a limit are kept: the longest beginning of it that has no more lines, which
never parts a carriage return from the line feed behind it. -/

namespace VbOutline.Files

/-! ### Bytes of a text -/

namespace Utf8

/-- The bytes of a text. -/
def encode (text : String) : List UInt8 := text.toUTF8.data.toList

theorem encode_eq (text : String) : encode text = text.toList.flatMap String.utf8EncodeChar := by
  rw [encode, String.toUTF8_eq_toByteArray, ← String.utf8Encode_toList, List.utf8Encode, List.data_toByteArray]

/-- The byte of an ASCII character. -/
theorem startWith_ascii : ∀ v : Fin 128, startWith (UInt8.ofNat v) = ([Char.ofNat v], none) := by
  decide +kernel

/-- The first of two bytes. -/
theorem startWith_two : ∀ lead : Fin 32, 2 ≤ lead.val →
    startWith (UInt8.ofNat (lead + 192)) = ([], some { bits := lead, missing := 0 }) := by
  decide +kernel

/-- The first of three bytes; the bounds keep the second one from an overlong form or a surrogate. -/
theorem startWith_three : ∀ lead : Fin 16, startWith (UInt8.ofNat (lead + 224)) = ([], some
    { bits := lead, missing := 1, least := if lead.val = 0 then 0xA0 else 0x80,
      greatest := if lead.val = 13 then 0x9F else 0xBF }) := by
  decide +kernel

/-- The first of four bytes; the bounds keep the second one from an overlong form and from what lies beyond. -/
theorem startWith_four : ∀ lead : Fin 5, startWith (UInt8.ofNat (lead + 240)) = ([], some
    { bits := lead, missing := 2, least := if lead.val = 0 then 0x90 else 0x80,
      greatest := if lead.val = 4 then 0x8F else 0xBF }) := by
  decide +kernel

/-- The six bits that a pending character takes from its next byte. -/
structure Admits (p : Pending) (n : Nat) : Prop where
  lt : n < 64
  least_le : p.least.toNat ≤ n + 128
  le_greatest : n + 128 ≤ p.greatest.toNat

theorem admits_any {bits missing n : Nat} (h : n < 64) : Admits { bits := bits, missing := missing } n :=
  ⟨h, Nat.le_add_left 128 n, Nat.le_of_lt_succ (Nat.add_lt_add_right h 128)⟩

theorem admits_bounded (bits missing : Nat) (low high : UInt8) {first last : Prop} [Decidable first] [Decidable last]
    {n : Nat} (h : n < 64) (hlow : first → low.toNat ≤ n + 128) (hhigh : last → n + 128 ≤ high.toNat) : Admits
      { bits := bits, missing := missing, least := if first then low else 0x80,
        greatest := if last then high else 0xBF } n := by
  refine ⟨h, ?_, ?_⟩
  · dsimp only
    split
    · exact hlow ‹_›
    · exact Nat.le_add_left 128 n
  · dsimp only
    split
    · exact hhigh ‹_›
    · exact Nat.le_of_lt_succ (Nat.add_lt_add_right h 128)

theorem step_of_admits {p : Pending} {n : Nat} (h : Admits p n) :
    step (some p) (UInt8.ofNat (n + 128)) =
      if p.missing = 0 then ([Char.ofNat (p.bits * 64 + n)], none)
      else ([], some { bits := p.bits * 64 + n, missing := p.missing - 1 }) := by
  have hlt := h.lt
  have hbyte : (UInt8.ofNat (n + 128)).toNat = n + 128 := by
    rw [UInt8.toNat_ofNat']
    omega
  have hwithin : p.least ≤ UInt8.ofNat (n + 128) ∧ UInt8.ofNat (n + 128) ≤ p.greatest := by
    rw [UInt8.le_iff_toNat_le, UInt8.le_iff_toNat_le, hbyte]
    exact ⟨h.least_le, h.le_greatest⟩
  simp only [step, if_pos hwithin, hbyte, Nat.add_sub_cancel]
  cases p.missing <;> rfl

theorem decodeFrom_cons (pending : Option Pending) (b : UInt8) (rest : List UInt8) :
    decodeFrom pending (b :: rest) = (step pending b).1 ++ decodeFrom (step pending b).2 rest := by
  cases pending <;> rfl

theorem decodeFrom_start {b : UInt8} {p : Pending} (h : startWith b = ([], some p)) (rest : List UInt8) :
    decodeFrom none (b :: rest) = decodeFrom (some p) rest := by
  rw [decodeFrom_cons, step, h, List.nil_append]

theorem decodeFrom_more {p : Pending} {n : Nat} (h : Admits p n) (hmissing : p.missing ≠ 0) (rest : List UInt8) :
    decodeFrom (some p) (UInt8.ofNat (n + 128) :: rest) =
      decodeFrom (some { bits := p.bits * 64 + n, missing := p.missing - 1 }) rest := by
  rw [decodeFrom_cons, step_of_admits h, if_neg hmissing, List.nil_append]

theorem decodeFrom_last {p : Pending} {n : Nat} (h : Admits p n) (hmissing : p.missing = 0) (rest : List UInt8) :
    decodeFrom (some p) (UInt8.ofNat (n + 128) :: rest) =
      Char.ofNat (p.bits * 64 + n) :: decodeFrom none rest := by
  rw [decodeFrom_cons, step_of_admits h, if_pos hmissing, List.singleton_append]

theorem decodeFrom_two {lead a : Nat} (hlead : lead < 32) (ha : a < 64) (hlong : 2 ≤ lead) (rest : List UInt8) :
    decodeFrom none (UInt8.ofNat (lead + 192) :: UInt8.ofNat (a + 128) :: rest) =
      Char.ofNat (lead * 64 + a) :: decodeFrom none rest :=
  (decodeFrom_start (startWith_two ⟨lead, hlead⟩ hlong) _).trans (decodeFrom_last (admits_any ha) rfl rest)

theorem decodeFrom_three {lead a b : Nat} (hlead : lead < 16) (ha : a < 64) (hb : b < 64)
    (hlong : lead = 0 → 32 ≤ a) (hsurrogate : lead = 13 → a < 32) (rest : List UInt8) :
    decodeFrom none (UInt8.ofNat (lead + 224) :: UInt8.ofNat (a + 128) :: UInt8.ofNat (b + 128) :: rest) =
      Char.ofNat ((lead * 64 + a) * 64 + b) :: decodeFrom none rest := by
  have hnext := admits_bounded lead 1 0xA0 0x9F ha
    (fun h => Nat.add_le_add_right (hlong h) 128) fun h => Nat.le_of_lt_succ (Nat.add_lt_add_right (hsurrogate h) 128)
  rw [decodeFrom_start (startWith_three ⟨lead, hlead⟩), decodeFrom_more hnext (Nat.succ_ne_zero 0)]
  exact decodeFrom_last (admits_any hb) rfl rest

theorem decodeFrom_four {lead a b d : Nat} (hlead : lead < 5) (ha : a < 64) (hb : b < 64) (hd : d < 64)
    (hlong : lead = 0 → 16 ≤ a) (hbeyond : lead = 4 → a < 16) (rest : List UInt8) :
    decodeFrom none (UInt8.ofNat (lead + 240) :: UInt8.ofNat (a + 128) :: UInt8.ofNat (b + 128) ::
      UInt8.ofNat (d + 128) :: rest) = Char.ofNat (((lead * 64 + a) * 64 + b) * 64 + d) :: decodeFrom none rest := by
  have hnext := admits_bounded lead 2 0x90 0x8F ha
    (fun h => Nat.add_le_add_right (hlong h) 128) fun h => Nat.le_of_lt_succ (Nat.add_lt_add_right (hbeyond h) 128)
  rw [decodeFrom_start (startWith_four ⟨lead, hlead⟩), decodeFrom_more hnext (Nat.succ_ne_zero 1)]
  exact (decodeFrom_more (admits_any hb) (Nat.succ_ne_zero 0) _).trans (decodeFrom_last (admits_any hd) rfl rest)

/-- The bytes of a character are read as the character. -/
theorem decodeFrom_char (c : Char) (rest : List UInt8) :
    decodeFrom none (String.utf8EncodeChar c ++ rest) = c :: decodeFrom none rest := by
  have hvalid : c.val.toNat < 0xD800 ∨ 0xDFFF < c.val.toNat ∧ c.val.toNat < 0x110000 := c.valid
  have hchar : Char.ofNat c.val.toNat = c := Char.ofNat_toNat c
  fun_cases String.utf8EncodeChar c with
  | case1 v hle =>
      have hstart := startWith_ascii ⟨v, by omega⟩
      rw [List.singleton_append, decodeFrom_cons, step, hstart, hchar, List.singleton_append]
  | case2 v hone hle =>
      have hread := @decodeFrom_two (v / 64 % 32) (v % 64) (by omega) (by omega) (by omega) rest
      rwa [show v / 64 % 32 * 64 + v % 64 = v by omega, hchar] at hread
  | case3 v hone htwo hle =>
      have hread := @decodeFrom_three (v / 4096 % 16) (v / 64 % 64) (v % 64) (by omega) (by omega) (by omega) (by omega)
        (by omega) rest
      rwa [show (v / 4096 % 16 * 64 + v / 64 % 64) * 64 + v % 64 = v by omega, hchar] at hread
  | case4 v hone htwo hthree =>
      have hread := @decodeFrom_four (v / 262144 % 8) (v / 4096 % 64) (v / 64 % 64) (v % 64) (by omega) (by omega)
        (by omega) (by omega) (by omega) (by omega) rest
      rwa [show ((v / 262144 % 8 * 64 + v / 4096 % 64) * 64 + v / 64 % 64) * 64 + v % 64 = v by omega,
        hchar] at hread

/-- A text is read back from its bytes. -/
theorem decode_encode (text : String) : decode (encode text) = text.toList := by
  rw [encode_eq, decode]
  induction text.toList with
  | nil => rfl
  | cons c rest ih => rw [List.flatMap_cons, decodeFrom_char, ih]

end Utf8

/-! ### Lines of a text -/

/-- What a line can end with. -/
inductive LineEnd : List Char → Prop
  | lf : LineEnd ['\n']
  | crlf : LineEnd ['\r', '\n']
  | cr : LineEnd ['\r']

/-- Characters among which no line ends. -/
def Unbroken (body : List Char) : Prop := ∀ c ∈ body, c ≠ '\n' ∧ c ≠ '\r'

/-- A text cut into lines, each with its end. Only the last line can be without an end, and a carriage return with a
line feed behind it is one end. -/
inductive CutLines : List Char → List (List Char) → Prop
  | nil : CutLines [] []
  | last {body : List Char} (hne : body ≠ []) (hbody : Unbroken body) : CutLines body [body]
  | line {body ending rest : List Char} {lines : List (List Char)} (hbody : Unbroken body) (hending : LineEnd ending)
      (hwhole : ending = ['\r'] → rest.head? ≠ some '\n') (h : CutLines rest lines) :
      CutLines (body ++ ending ++ rest) ((body ++ ending) :: lines)

theorem lineEnd_of_break {c : Char} (h : c = '\n' ∨ c = '\r') : LineEnd [c] := by
  rcases h with rfl | rfl
  · exact .lf
  · exact .cr

theorem takeLines_zero (text : List Char) : takeLines 0 text = [] := by
  rw [takeLines]

theorem takeLines_nil (n : Nat) : takeLines n [] = [] := by
  cases n <;> rfl

theorem takeLines_cons {c : Char} (h : c ≠ '\n' ∧ c ≠ '\r') (n : Nat) (rest : List Char) :
    takeLines (n + 1) (c :: rest) = c :: takeLines (n + 1) rest := by
  rw [takeLines, if_neg (by simp [h])]
  rintro r rfl
  exact absurd rfl h.2

theorem takeLines_unbroken {body : List Char} (h : Unbroken body) (n : Nat) (rest : List Char) :
    takeLines (n + 1) (body ++ rest) = body ++ takeLines (n + 1) rest := by
  induction body with
  | nil => rfl
  | cons c body ih =>
      rw [List.cons_append, takeLines_cons (h c List.mem_cons_self), ih fun x hx => h x (List.mem_cons_of_mem c hx),
        List.cons_append]

theorem takeLines_end {ending rest : List Char} (h : LineEnd ending) (hwhole : ending = ['\r'] → rest.head? ≠ some '\n')
    (n : Nat) : takeLines (n + 1) (ending ++ rest) = ending ++ takeLines n rest := by
  cases h with
  | lf => rfl
  | crlf => rfl
  | cr =>
      rw [List.singleton_append, takeLines, if_pos (Or.inr rfl), List.singleton_append]
      rintro r - rfl
      exact hwhole rfl rfl

namespace CutLines

variable {text : List Char} {lines : List (List Char)}

theorem takeLines_eq (h : CutLines text lines) (n : Nat) : takeLines n text = (lines.take n).flatten := by
  induction h generalizing n with
  | nil => rw [takeLines_nil, List.take_nil, List.flatten_nil]
  | @last body hne hbody =>
      cases n with
      | zero => rw [takeLines_zero, List.take_zero, List.flatten_nil]
      | succ n =>
          have hall := takeLines_unbroken hbody n []
          rw [takeLines_nil, List.append_nil] at hall
          rw [hall, List.take_succ_cons, List.take_nil, List.flatten_singleton]
  | @line body ending rest lines hbody hending hwhole h ih =>
      cases n with
      | zero => rw [takeLines_zero, List.take_zero, List.flatten_nil]
      | succ n =>
          rw [List.append_assoc, takeLines_unbroken hbody, takeLines_end hending hwhole, ih, List.take_succ_cons,
            List.flatten_cons, List.append_assoc]

theorem flatten_eq (h : CutLines text lines) : lines.flatten = text := by
  induction h with
  | nil => rfl
  | last hne hbody => exact List.flatten_singleton
  | line hbody hending hwhole h ih => rw [List.flatten_cons, ih]

theorem ne_nil (h : CutLines text lines) : [] ∉ lines := by
  induction h with
  | nil => exact List.not_mem_nil
  | last hne hbody => simpa using hne.symm
  | line hbody hending hwhole h ih =>
      have hline : ∀ {ending : List Char}, LineEnd ending → ∀ body, [] ≠ body ++ ending := by
        rintro ending (_ | _ | _) body <;> simp
      simp [ih, hline hending]

/-- The first lines of a text are its lines up to there. -/
theorem take (h : CutLines text lines) (n : Nat) : CutLines (lines.take n).flatten (lines.take n) := by
  induction h generalizing n with
  | nil =>
      rw [List.take_nil]
      exact .nil
  | last hne hbody =>
      cases n with
      | zero => exact .nil
      | succ n =>
          rw [List.take_succ_cons, List.take_nil, List.flatten_singleton]
          exact .last hne hbody
  | @line body ending rest lines hbody hending hwhole h ih =>
      cases n with
      | zero => exact .nil
      | succ n =>
          rw [List.take_succ_cons, List.flatten_cons]
          refine .line hbody hending (fun hcr hhead => hwhole hcr ?_) (ih n)
          rw [← h.flatten_eq, ← List.take_append_drop n lines, List.flatten_append, List.head?_append, hhead]
          rfl

/-- No line ends between a carriage return and a line feed. -/
theorem uncut (h : CutLines text lines) (n : Nat) (hcr : (lines.take n).flatten.getLast? = some '\r') :
    (lines.drop n).flatten.head? ≠ some '\n' := by
  induction h generalizing n with
  | nil => simp at hcr
  | last hne hbody =>
      cases n with
      | zero => simp at hcr
      | succ n => simp
  | @line body ending rest lines hbody hending hwhole h ih =>
      cases n with
      | zero => simp at hcr
      | succ n =>
          rw [List.take_succ_cons, List.flatten_cons, List.getLast?_append] at hcr
          rw [List.drop_succ_cons]
          cases hlast : (lines.take n).flatten.getLast? with
          | some c =>
              rw [hlast, Option.some_or] at hcr
              exact ih n (hlast.trans hcr)
          | none =>
              -- nothing follows the line, which ends in a lone carriage return
              have hrest : (lines.drop n).flatten = rest := by
                have hflat := h.flatten_eq
                rwa [← List.take_append_drop n lines, List.flatten_append, List.getLast?_eq_none_iff.1 hlast,
                  List.nil_append] at hflat
              rw [hlast, Option.none_or, List.getLast?_append] at hcr
              rw [hrest]
              cases hending with
              | lf => simp at hcr
              | crlf => simp at hcr
              | cr => exact hwhole rfl

/-- The end of a line is a line if nothing is in front of it. -/
theorem cons_end (h : CutLines text lines) {ending : List Char} (hending : LineEnd ending)
    (hwhole : ending = ['\r'] → text.head? ≠ some '\n') : CutLines (ending ++ text) (ending :: lines) :=
  @CutLines.line [] ending text lines (List.forall_mem_nil _) hending hwhole h

/-- A character that ends no line joins the first line. -/
theorem exists_cons (h : CutLines text lines) {c : Char} (hc : c ≠ '\n' ∧ c ≠ '\r') :
    ∃ lines, CutLines (c :: text) lines := by
  cases h with
  | nil => exact ⟨_, .last (List.cons_ne_nil c []) (by simpa [Unbroken] using hc)⟩
  | last hne hbody => exact ⟨_, .last (List.cons_ne_nil c text) (List.forall_mem_cons.2 ⟨hc, hbody⟩)⟩
  | line hbody hending hwhole h => exact ⟨_, .line (List.forall_mem_cons.2 ⟨hc, hbody⟩) hending hwhole h⟩

theorem eq_of_take_flatten {lines lines' : List (List Char)} (hne : [] ∉ lines) (hne' : [] ∉ lines')
    (h : ∀ n, (lines.take n).flatten = (lines'.take n).flatten) : lines = lines' := by
  induction lines generalizing lines' with
  | nil =>
      cases lines' with
      | nil => rfl
      | cons first others =>
          have hfirst : [] = first := by simpa using h 1
          exact absurd (hfirst ▸ List.mem_cons_self) hne'
  | cons line lines ih =>
      cases lines' with
      | nil =>
          have hline : line = [] := by simpa using h 1
          exact absurd (hline ▸ List.mem_cons_self) hne
      | cons first others =>
          have hline : line = first := by simpa using h 1
          subst hline
          rw [ih (fun hmem => hne (List.mem_cons_of_mem line hmem)) (fun hmem => hne' (List.mem_cons_of_mem line hmem))]
          intro n
          simpa using h (n + 1)

/-- A text can be cut into lines in one way. -/
theorem unique {lines' : List (List Char)} (h : CutLines text lines) (h' : CutLines text lines') : lines = lines' :=
  eq_of_take_flatten h.ne_nil h'.ne_nil fun n => (h.takeLines_eq n).symm.trans (h'.takeLines_eq n)

end CutLines

theorem exists_cutLines : ∀ text, ∃ lines, CutLines text lines
  | [] => ⟨[], .nil⟩
  | [c] => by
      by_cases hc : c = '\n' ∨ c = '\r'
      · exact ⟨_, CutLines.nil.cons_end (lineEnd_of_break hc) (by simp)⟩
      · exact CutLines.nil.exists_cons (not_or.1 hc)
  | c :: d :: rest => by
      obtain ⟨lines, h⟩ := exists_cutLines (d :: rest)
      by_cases hlf : c = '\n'
      · subst hlf
        exact ⟨_, h.cons_end .lf (by simp)⟩
      · by_cases hcr : c = '\r'
        · subst hcr
          by_cases hd : d = '\n'
          · subst hd
            obtain ⟨lines, h⟩ := exists_cutLines rest
            exact ⟨_, h.cons_end .crlf (by simp)⟩
          · exact ⟨_, h.cons_end .cr (by simpa using hd)⟩
        · exact h.exists_cons ⟨hlf, hcr⟩

/-- A text with at most some number of lines. -/
def HasLines (limit : Nat) (text : List Char) : Prop := ∃ lines, CutLines text lines ∧ lines.length ≤ limit

theorem takeLines_of_hasLines {limit : Nat} {text : List Char} (h : HasLines limit text) :
    takeLines limit text = text := by
  obtain ⟨lines, hlines, hle⟩ := h
  rw [hlines.takeLines_eq, List.take_of_length_le hle, hlines.flatten_eq]

theorem head?_takeLines {n : Nat} (hn : n ≠ 0) (text : List Char) : (takeLines n text).head? = text.head? := by
  fun_cases takeLines n text with
  | case1 => exact absurd rfl hn
  | case2 | case3 | case4 | case5 => rfl

/-- No more is kept of the beginning of a text than of the text. -/
theorem takeLines_mono (n : Nat) (front tail : List Char) : takeLines n front <+: takeLines n (front ++ tail) := by
  fun_induction takeLines n front with
  | case1 | case2 => exact List.nil_prefix
  | case3 n rest ih =>
      rw [List.cons_append, List.cons_append, takeLines, List.prefix_cons_inj, List.prefix_cons_inj]
      exact ih
  | case4 n c rest hwhole hbreak ih =>
      cases rest with
      | nil =>
          -- the end may have its second half in the tail
          obtain ⟨more, hmore⟩ := List.head?_eq_some_iff.1 (head?_takeLines (Nat.succ_ne_zero n) (c :: tail))
          rw [takeLines_nil, List.singleton_append, hmore]
          exact ⟨more, rfl⟩
      | cons d rest =>
          have hapart : [c] = ['\r'] → (d :: rest ++ tail).head? ≠ some '\n' := by
            rintro ⟨⟩ hhead
            exact hwhole rest rfl (by simpa using hhead)
          have hend := takeLines_end (lineEnd_of_break hbreak) hapart n
          rw [List.singleton_append, List.singleton_append] at hend
          rw [List.cons_append, hend, List.prefix_cons_inj]
          exact ih
  | case5 n c rest _ hbreak ih =>
      rw [List.cons_append, takeLines_cons (not_or.1 hbreak), List.prefix_cons_inj]
      exact ih

/-- The beginning of a text that is kept of it. -/
structure Excerpt (limit : Nat) (text kept : List Char) : Prop where
  /-- The text has one division into lines, and the first lines are kept. -/
  lines : ∃ lines, CutLines text lines ∧ (∀ other, CutLines text other → other = lines) ∧
    kept = (lines.take limit).flatten
  begins : kept <+: text
  hasLines : HasLines limit kept
  longest : ∀ front, front <+: text → HasLines limit front → front <+: kept
  uncut : ∀ tail, text = kept ++ tail → kept.getLast? = some '\r' → tail.head? ≠ some '\n'
  whole : HasLines limit text → kept = text

theorem takeLines_excerpt (limit : Nat) (text : List Char) : Excerpt limit text (takeLines limit text) := by
  obtain ⟨lines, h⟩ := exists_cutLines text
  have hkept := h.takeLines_eq limit
  constructor
  case lines => exact ⟨lines, h, fun other hother => hother.unique h, hkept⟩
  case begins =>
    refine ⟨(lines.drop limit).flatten, ?_⟩
    rw [hkept, ← List.flatten_append, List.take_append_drop, h.flatten_eq]
  case hasLines =>
    rw [hkept]
    exact ⟨lines.take limit, h.take limit, List.length_take_le limit lines⟩
  case longest =>
    intro front hfront hlines
    obtain ⟨tail, rfl⟩ := hfront
    have hmono := takeLines_mono limit front tail
    rwa [takeLines_of_hasLines hlines] at hmono
  case uncut =>
    intro tail htail hcr
    have hboth : takeLines limit text ++ tail = takeLines limit text ++ (lines.drop limit).flatten := by
      rw [← htail, hkept, ← List.flatten_append, List.take_append_drop, h.flatten_eq]
    have hrest := List.append_cancel_left hboth
    rw [hkept] at hcr
    rw [hrest]
    exact h.uncut limit hcr
  case whole => exact takeLines_of_hasLines

theorem hasLines_iff {limit : Nat} {text : List Char} : HasLines limit text ↔ takeLines limit text = text := by
  constructor
  · exact takeLines_of_hasLines
  · intro h
    have hkept := (takeLines_excerpt limit text).hasLines
    rwa [h] at hkept

/-! ### Reading a file -/

theorem isBinary_iff {content : List UInt8} : isBinary content = true ↔ ∃ i < 8192, content[i]? = some 0 := by
  rw [isBinary, List.contains_iff_mem, List.mem_iff_getElem?]
  simp only [List.getElem?_take, sniffed, Option.ite_none_right_eq_some]

/-- What a file is read as: nothing if it is missing or binary, and else the kept lines of its text. A text written
as bytes is read back. -/
structure ReadAs (files : Disk) (limit : Nat) (path : String) : Prop where
  none_iff : readScript? files limit path = none ↔
    files.file? path = none ∨ ∃ content, files.file? path = some content ∧ ∃ i < 8192, content[i]? = some 0
  excerpt : ∀ content, files.file? path = some content → (∀ i < 8192, content[i]? ≠ some 0) →
    ∃ kept, readScript? files limit path = some (String.ofList kept) ∧ Excerpt limit (Utf8.decode content) kept
  read_back : ∀ text : String, files.file? path = some (Utf8.encode text) →
    (∀ i < 8192, (Utf8.encode text)[i]? ≠ some 0) → HasLines limit text.toList →
      readScript? files limit path = some text

theorem readScript?_of_text {files : Disk} {path : String} {content : List UInt8} (h : files.file? path = some content)
    (hbinary : ∀ i < 8192, content[i]? ≠ some 0) (limit : Nat) :
    readScript? files limit path = some (String.ofList (takeLines limit (Utf8.decode content))) := by
  have hnot : ¬ isBinary content = true := fun hzero => by
    obtain ⟨i, hi, hcontent⟩ := isBinary_iff.1 hzero
    exact hbinary i hi hcontent
  rw [readScript?, h]
  exact if_neg hnot

theorem file_readAs (files : Disk) (limit : Nat) (path : String) : ReadAs files limit path := by
  constructor
  case none_iff =>
    rw [readScript?]
    cases files.file? path with
    | none => simp
    | some content =>
        by_cases hbinary : isBinary content = true
        · simpa [hbinary] using isBinary_iff.1 hbinary
        · simpa [hbinary] using fun i hi hzero => hbinary (isBinary_iff.2 ⟨i, hi, hzero⟩)
  case excerpt =>
    intro content hfile hbinary
    exact ⟨_, readScript?_of_text hfile hbinary limit, takeLines_excerpt limit _⟩
  case read_back =>
    intro text hfile hbinary hlines
    rw [readScript?_of_text hfile hbinary, Utf8.decode_encode, takeLines_of_hasLines hlines, String.ofList_toList]

/-- A byte order mark, characters of two to four bytes and all three ends of lines. -/
def mixedEnds : String := "\uFEFFé\r\n€\r𝄞\n"

theorem file_readAs_mixedEnds :
    let root := Folder.file "a.vbs" (Utf8.encode mixedEnds) .empty
    (Utf8.encode mixedEnds).length = 16 ∧ HasLines 3 mixedEnds.toList ∧ readScript? root 3 "a.vbs" = some mixedEnds := by
  have hlines : HasLines 3 mixedEnds.toList := hasLines_iff.2 (by decide +kernel)
  have hzero : 0 ∉ Utf8.encode mixedEnds := by decide +kernel
  refine ⟨by decide +kernel, hlines, ?_⟩
  exact (file_readAs _ 3 "a.vbs").read_back mixedEnds rfl (fun i _ h => hzero (List.mem_of_getElem? h)) hlines

end VbOutline.Files
