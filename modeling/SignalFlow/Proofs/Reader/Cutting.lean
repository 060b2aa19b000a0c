import SignalFlow.Double
import SignalFlow.Proofs.Reader.Lexeme

/-!
# Texts cut into lexemes

`Cuts o cs ps rest` says that the characters `cs`, which stand at byte `o`, are cut into blanks and lexemes that are as
long as they can be, up to the characters `rest`; `ps` holds the lexemes with their tokens. The actual rest is part of
the relation, since how long a lexeme can be depends on it. Every text is cut to its end, or to a misfit
(`exists_cuts`), and its tokens are those of a cut (`Cuts.tokensFrom_eq`).

So a text has tokens just when it is cut to its end, and what it is cut to otherwise tells its error
(`tokenize_iff_cuts`). Lexemes that need not be as long as they can be do not do: `1.2.` is made of `1.` and `2.`, but
is cut into `1.2` and a misfit.
-/

namespace SignalFlow.Reader

open Decimal (NumeralText FractionText ExponentText)

variable {α : Type}

/-! ## Bytes -/

/-- The number of bytes that encode characters. -/
def bytes (cs : List Char) : Nat := (String.ofList cs).utf8ByteSize

@[simp] theorem bytes_nil : bytes [] = 0 := rfl

@[simp] theorem bytes_cons (c : Char) (cs : List Char) : bytes (c :: cs) = c.utf8Size + bytes cs := by
  rw [bytes, String.ofList_cons, String.utf8ByteSize_append, String.utf8ByteSize_singleton, bytes]

@[simp] theorem bytes_append (cs ds : List Char) : bytes (cs ++ ds) = bytes cs + bytes ds := by
  rw [bytes, String.ofList_append, String.utf8ByteSize_append, bytes, bytes]

/-- Characters of one byte each. -/
theorem bytes_eq_length {cs : List Char} (h : ∀ c ∈ cs, c.utf8Size = 1) : bytes cs = cs.length := by
  induction cs with
  | nil => rfl
  | cons c cs ih =>
    rw [bytes_cons, h c List.mem_cons_self, ih fun d hd => h d (List.mem_cons_of_mem c hd), List.length_cons,
      Nat.add_comm]

/-! ## The characters of lexemes -/

section Characters

variable {c : Char}

/-- A character of a lexeme: it takes one byte, and is no blank. -/
def Plain (c : Char) : Prop := c.utf8Size = 1 ∧ isSpace c = false

theorem utf8Size_of_isSpace (h : isSpace c = true) : c.utf8Size = 1 := by
  simp only [isSpace, Bool.or_eq_true, beq_iff_eq] at h
  rcases h with ((rfl | rfl) | rfl) | rfl <;> rfl

theorem isSpace_of_inName (h : inName c = true) : isSpace c = false := by
  refine Bool.eq_false_iff.mpr fun hspace => ?_
  simp only [isSpace, Bool.or_eq_true, beq_iff_eq] at hspace
  rcases hspace with ((rfl | rfl) | rfl) | rfl <;> exact absurd h (by decide)

theorem utf8Size_of_isAlphanum (h : c.isAlphanum = true) : c.utf8Size = 1 := by
  refine Char.utf8Size_eq_one_iff.mpr ?_
  have hle {last : Char} (h : c.val ≤ last.val) (hlast : last.val ≤ 127) : c.val ≤ 127 := UInt32.le_trans h hlast
  rcases Bool.or_eq_true_iff.mp h with halpha | hdigit
  · rcases Bool.or_eq_true_iff.mp halpha with hupper | hlower
    · exact hle (of_decide_eq_true hupper).2 (by decide)
    · exact hle (of_decide_eq_true (Bool.and_eq_true_iff.mp hlower).2) (by decide)
  · exact hle (of_decide_eq_true (Bool.and_eq_true_iff.mp hdigit).2) (by decide)

theorem plain_of_inName (h : inName c = true) : Plain c := by
  refine ⟨?_, isSpace_of_inName h⟩
  rcases Bool.or_eq_true_iff.mp h with h | h
  · exact utf8Size_of_isAlphanum h
  · rw [beq_iff_eq.mp h]
    rfl

theorem inName_of_startsName (h : startsName c = true) : inName c = true := by
  simp only [startsName, Bool.or_eq_true] at h
  rcases h with h | h <;> simp [inName, Char.isAlphanum, h]

theorem plain_of_sign {x : Symbol α} (h : sign? c = some x) : Plain c := by
  refine ⟨?_, isSpace_of_sign h⟩
  unfold sign? at h
  split at h <;> first | rfl | cases h

theorem plain_of_isDigit (h : c.isDigit = true) : Plain c := plain_of_inName (inName_of_isDigit h)

theorem plain_of_fractionText {f fraction : List Char} (h : FractionText f fraction) : ∀ c ∈ f, Plain c := by
  intro c hc
  cases h with
  | none => cases hc
  | point hds =>
    rcases List.mem_cons.mp hc with rfl | hc
    · exact ⟨rfl, rfl⟩
    · exact plain_of_isDigit (hds c hc)

theorem plain_of_exponentText {x : List Char} {e : Int} (h : ExponentText x e) : ∀ c ∈ x, Plain c := by
  intro c hc
  cases h with
  | none => cases hc
  | some hletter hsign hne hds =>
    rcases List.mem_cons.mp hc with rfl | hc
    case inl => rcases hletter with rfl | rfl <;> exact ⟨rfl, rfl⟩
    rcases List.mem_append.mp hc with hc | hc
    case inr => exact plain_of_isDigit (hds c hc)
    rcases hsign with rfl | rfl | rfl
    case inl => cases hc
    all_goals
      rw [List.mem_singleton.mp hc]
      exact ⟨rfl, rfl⟩

theorem plain_of_numeralText {w : List Char} {n : Decimal.Numeral} (h : NumeralText w n) : ∀ c ∈ w, Plain c := by
  obtain ⟨hwhole, hf, hx⟩ := h
  intro c hc
  rcases List.mem_append.mp hc with hc | hc
  case inl => exact plain_of_isDigit (hwhole c hc)
  rcases List.mem_append.mp hc with hc | hc
  · exact plain_of_fractionText hf c hc
  · exact plain_of_exponentText hx c hc

end Characters

variable [Scalar α]

theorem Lexeme.plain {w : List Char} {x : Symbol α} (h : Lexeme w x) : ∀ c ∈ w, Plain c := by
  cases h with
  | sign hc =>
    intro c h
    rw [List.mem_singleton.mp h]
    exact plain_of_sign hc
  | word hc hw =>
    intro c h
    rcases List.mem_cons.mp h with rfl | h
    · exact plain_of_inName (inName_of_startsName hc)
    · exact plain_of_inName (hw c h)
  | number hw => exact plain_of_numeralText hw

theorem Lexeme.bytes_eq {w : List Char} {x : Symbol α} (h : Lexeme w x) : bytes w = w.length :=
  bytes_eq_length fun c hc => (h.plain c hc).1

theorem Lexeme.bytes_pos {w : List Char} {x : Symbol α} (h : Lexeme w x) : 0 < bytes w := by
  rw [h.bytes_eq]
  exact List.length_pos_iff.mpr h.ne_nil

/-- A lexeme is as long as it can be where nothing or a blank follows. -/
theorem longest_of_blank {w rest : List Char} (h : ∀ c ∈ rest.head?, isSpace c = true) : Longest α w rest := by
  intro p q hpq x hx
  match p with
  | [] => rfl
  | c :: p =>
    have hspace := h c (by rw [hpq]; rfl)
    rw [(hx.plain c (List.mem_append_right w List.mem_cons_self)).2] at hspace
    cases hspace

/-! ## Cuts -/

/-- **Characters cut up to a rest**: blanks, and lexemes that are as long as they can be, with their tokens. -/
inductive Cuts : Nat → List Char → List (Token α × List Char) → List Char → Prop
  | stop {o rest} : Cuts o rest [] rest
  | blank {o c cs ps rest} (hc : isSpace c = true) (h : Cuts (o + bytes [c]) cs ps rest) : Cuts o (c :: cs) ps rest
  | token {o w x cs ps rest} (hw : Lexeme w x) (hmax : Longest α w cs) (h : Cuts (o + bytes w) cs ps rest) :
      Cuts o (w ++ cs) ((⟨x, o⟩, w) :: ps) rest

/-- **Every text is cut**, to its end or to a misfit. -/
theorem exists_cuts (o : Nat) (cs : List Char) :
    ∃ ps rest, Cuts (α := α) o cs ps rest ∧ (rest = [] ∨ ∃ f, Misfit α rest f) := by
  induction hn : cs.length using Nat.strongRecOn generalizing o cs with
  | ind n ih =>
  subst hn
  match cs with
  | [] => exact ⟨[], [], .stop, .inl rfl⟩
  | c :: cs =>
    obtain ⟨hspace, -⟩ | ⟨w, after, x, hcs, hw, hmax, -⟩ | ⟨f, hf, -⟩ := scanHead_cases (α := α) c cs
    · obtain ⟨ps, rest, hcuts, hrest⟩ := ih cs.length (Nat.lt_succ_self _) (o + bytes [c]) cs rfl
      exact ⟨ps, rest, .blank hspace hcuts, hrest⟩
    · have hlt : after.length < (c :: cs).length := by
        have := List.length_pos_iff.mpr hw.ne_nil
        rw [hcs, List.length_append]
        omega
      obtain ⟨ps, rest, hcuts, hrest⟩ := ih after.length hlt (o + bytes w) after rfl
      rw [hcs]
      exact ⟨(⟨x, o⟩, w) :: ps, rest, .token hw hmax hcuts, hrest⟩
    · exact ⟨[], c :: cs, .stop, .inr ⟨f, hf⟩⟩

/-- **The tokens of a text whose head is scanned**, be it a blank or a lexeme. -/
theorem tokensFrom_append {c : Char} {cs w rest : List Char} {found : Option (Symbol α)} {h : rest.length ≤ cs.length}
    (hhead : scanHead c cs = .ok (found, ⟨rest, h⟩)) (hcs : c :: cs = w ++ rest) (hw : bytes w = w.length) (o : Nat) :
    tokensFrom o (w ++ rest) = (tokensFrom (o + bytes w) rest).map ((found.toList.map fun x => ⟨x, o⟩) ++ ·) := by
  have hlength : cs.length + 1 - rest.length = bytes w := by
    rw [hw, ← List.length_cons, hcs, List.length_append, Nat.add_sub_cancel]
  rw [← hcs, tokensFrom, hhead]
  dsimp only
  rw [hlength]
  cases tokensFrom (α := α) (o + bytes w) rest with
  | error e => rfl
  | ok toks => cases found <;> rfl

theorem tokensFrom_blank {c : Char} (hc : isSpace c = true) (cs : List Char) (o : Nat) :
    tokensFrom (α := α) o (c :: cs) = tokensFrom (α := α) (o + bytes [c]) cs := by
  obtain ⟨h, hhead⟩ := scanHead_of_isSpace (α := α) hc cs
  have hbytes : bytes [c] = [c].length := by
    rw [bytes_cons, bytes_nil, utf8Size_of_isSpace hc]
    rfl
  exact (tokensFrom_append (w := [c]) hhead rfl hbytes o).trans (congrFun Except.map_id _)

theorem tokensFrom_lexeme {w cs : List Char} {x : Symbol α} (hw : Lexeme w x) (hmax : Longest α w cs) (o : Nat) :
    tokensFrom o (w ++ cs) = (tokensFrom (o + bytes w) cs).map (⟨x, o⟩ :: ·) := by
  have hbytes := hw.bytes_eq
  obtain ⟨c, v, rfl, -⟩ := hw.head
  have hcs : c :: (v ++ cs) = (c :: v) ++ cs := rfl
  obtain ⟨h, hhead⟩ := scanHead_of_longest hcs hw hmax
  exact tokensFrom_append hhead hcs hbytes o

theorem Lexes.lexeme {w cs : List Char} {x : Symbol α} {syms : List (Symbol α)} (hw : Lexeme w x)
    (hmax : Longest α w cs) (h : Lexes cs syms) : Lexes (w ++ cs) (x :: syms) := by
  intro o
  obtain ⟨toks, htoks, rfl⟩ := h (o + bytes w)
  refine ⟨⟨x, o⟩ :: toks, ?_, rfl⟩
  rw [tokensFrom_lexeme hw hmax, htoks]
  rfl

namespace Cuts

variable {o : Nat} {cs rest : List Char} {ps : List (Token α × List Char)}

/-- **The tokens of a cut** come before those of the rest. -/
theorem tokensFrom_eq (h : Cuts o cs ps rest) : ∃ before, cs = before ++ rest ∧
    tokensFrom o cs = (tokensFrom (o + bytes before) rest).map (ps.map Prod.fst ++ ·) := by
  induction h with
  | stop => exact ⟨[], rfl, (congrFun Except.map_id _).symm⟩
  | @blank o c cs ps rest hc h ih =>
    obtain ⟨before, rfl, ih⟩ := ih
    refine ⟨c :: before, rfl, ?_⟩
    rw [tokensFrom_blank hc, ih, Nat.add_assoc, ← bytes_append]
    rfl
  | @token o w x cs ps rest hw hmax h ih =>
    obtain ⟨before, rfl, ih⟩ := ih
    refine ⟨w ++ before, (List.append_assoc ..).symm, ?_⟩
    rw [tokensFrom_lexeme hw hmax, ih, Nat.add_assoc, ← bytes_append]
    cases tokensFrom (α := α) (o + bytes (w ++ before)) rest <;> rfl

/-- **Where the lexemes stand.** -/
theorem placed (h : Cuts o cs ps rest) : ∀ p ∈ ps, ∃ before after, cs = before ++ (p.2 ++ after) ∧
    p.1.offset = o + bytes before ∧ Lexeme p.2 p.1.symbol ∧ Longest α p.2 after := by
  induction h with
  | stop => exact List.forall_mem_nil _
  | @blank o c cs ps rest hc h ih =>
    intro p hp
    obtain ⟨before, after, rfl, ho, hp⟩ := ih p hp
    refine ⟨c :: before, after, rfl, ?_, hp⟩
    rw [ho, bytes_cons, bytes_cons, bytes_nil, Nat.add_zero, Nat.add_assoc]
  | @token o w x cs ps rest hw hmax h ih =>
    intro p hp
    rcases List.mem_cons.mp hp with rfl | hp
    · exact ⟨[], cs, rfl, rfl, hw, hmax⟩
    · obtain ⟨before, after, rfl, ho, hp⟩ := ih p hp
      refine ⟨w ++ before, after, (List.append_assoc ..).symm, ?_, hp⟩
      rw [ho, bytes_append, Nat.add_assoc]

/-- **The tokens stand one after the other.** -/
theorem increasing (h : Cuts o cs ps rest) : (ps.map fun p => p.1.offset).Pairwise (· < ·) := by
  induction h with
  | stop => exact .nil
  | blank _ _ ih => exact ih
  | @token o w x cs ps rest hw hmax h ih =>
    refine .cons ?_ ih
    intro k hk
    obtain ⟨p, hp, rfl⟩ := List.mem_map.mp hk
    obtain ⟨before, -, -, ho, -⟩ := h.placed p hp
    have hpos := hw.bytes_pos
    show o < p.1.offset
    omega

/-- **The lexemes alone**, with a blank between each two, have the symbols of the cut. -/
theorem respaced (h : Cuts o cs ps rest) :
    Lexes ([' '].intercalate (ps.map Prod.snd)) (ps.map fun p => p.1.symbol) := by
  induction h with
  | stop => exact .nil
  | blank _ _ ih => exact ih
  | @token o w x cs ps rest hw hmax h ih =>
    cases ps with
    | nil =>
      have hend : Longest α w [] := longest_of_blank nofun
      simpa using Lexes.lexeme hw hend .nil
    | cons p ps =>
      have hspace (after : List Char) : Longest α w (' ' :: after) := longest_of_blank fun c hc => by cases hc; rfl
      simpa using Lexes.lexeme hw (hspace _) (.blank rfl ih)

/-- A text that is cut to its end has the tokens of the cut. -/
theorem tokensFrom_ok (h : Cuts o cs ps []) : tokensFrom o cs = .ok (ps.map Prod.fst) := by
  obtain ⟨before, -, htoks⟩ := h.tokensFrom_eq
  rw [htoks, tokensFrom]
  exact congrArg Except.ok (List.append_nil _)

/-- A text that is cut to a misfit has its error. -/
theorem tokensFrom_error {f : ReadFault} (h : Cuts o cs ps rest) (hrest : Misfit α rest f) :
    ∃ before, cs = before ++ rest ∧ tokensFrom (α := α) o cs = .error ⟨o + bytes before, f⟩ := by
  obtain ⟨before, hcs, htoks⟩ := h.tokensFrom_eq
  refine ⟨before, hcs, ?_⟩
  obtain ⟨c, rest, rfl, -⟩ := hrest.head
  rw [htoks, tokensFrom, scanHead_of_misfit hrest]
  rfl

end Cuts

/-! ## Texts -/

/-- A text has tokens just when it is cut to its end. -/
theorem tokenize_ok_iff {text : String} {toks : List (Token α)} :
    tokenize text = .ok toks ↔ ∃ ps, Cuts 0 text.toList ps [] ∧ toks = ps.map Prod.fst := by
  constructor
  · intro h
    obtain ⟨ps, rest, hcuts, rfl | ⟨f, hf⟩⟩ := exists_cuts (α := α) 0 text.toList
    · exact ⟨ps, hcuts, Except.ok.inj (h.symm.trans hcuts.tokensFrom_ok)⟩
    · obtain ⟨before, -, herror⟩ := hcuts.tokensFrom_error hf
      cases h.symm.trans herror
  · rintro ⟨ps, hcuts, rfl⟩
    exact hcuts.tokensFrom_ok

/-- A text has an error just when it is cut to a misfit. -/
theorem tokenize_error_iff {text : String} {e : ReadError} :
    tokenize (α := α) text = .error e ↔ ∃ ps before rest, Cuts (α := α) 0 text.toList ps rest ∧
      text.toList = before ++ rest ∧ Misfit α rest e.fault ∧ e.offset = bytes before := by
  constructor
  · intro h
    obtain ⟨ps, rest, hcuts, rfl | ⟨f, hf⟩⟩ := exists_cuts (α := α) 0 text.toList
    · cases h.symm.trans hcuts.tokensFrom_ok
    · obtain ⟨before, hcs, herror⟩ := hcuts.tokensFrom_error hf
      cases h.symm.trans herror
      exact ⟨ps, before, rest, hcuts, hcs, hf, Nat.zero_add _⟩
  · rintro ⟨ps, before, rest, hcuts, hcs, hf, ho⟩
    obtain ⟨before', hcs', herror⟩ := hcuts.tokensFrom_error hf
    obtain rfl := List.append_cancel_right (hcs.symm.trans hcs')
    rw [Nat.zero_add, ← ho] at herror
    exact herror

/-- **Lexing is lossless.** A text has tokens just when it is cut to its end, and then those of the cut; it has an error
just when it is cut to a misfit, and then the misfit's, at its first byte. The tokens of a cut stand one after the
other, each with its lexeme, and a text of the lexemes alone has the same symbols. -/
theorem tokenize_iff_cuts (text : String) :
    (∀ toks : List (Token α), tokenize text = .ok toks ↔ ∃ ps, Cuts 0 text.toList ps [] ∧ toks = ps.map Prod.fst) ∧
    (∀ e, tokenize (α := α) text = .error e ↔ ∃ ps before rest, Cuts (α := α) 0 text.toList ps rest ∧
      text.toList = before ++ rest ∧ Misfit α rest e.fault ∧ e.offset = bytes before) ∧
    ∀ (ps : List (Token α × List Char)) (rest : List Char), Cuts 0 text.toList ps rest →
      (ps.map fun p => p.1.offset).Pairwise (· < ·) ∧
      (∀ p ∈ ps, ∃ before after, text.toList = before ++ (p.2 ++ after) ∧ p.1.offset = bytes before ∧
        Lexeme p.2 p.1.symbol ∧ Longest α p.2 after) ∧
      ∃ toks : List (Token α), tokenize (String.ofList ([' '].intercalate (ps.map Prod.snd))) = .ok toks ∧
        symbols toks = ps.map fun p => p.1.symbol := by
  refine ⟨fun toks => tokenize_ok_iff, fun e => tokenize_error_iff, fun ps rest h => ⟨h.increasing, ?_, ?_⟩⟩
  · simpa only [Nat.zero_add] using h.placed
  · obtain ⟨toks, htoks, hsymbols⟩ := h.respaced 0
    refine ⟨toks, ?_, hsymbols⟩
    rw [tokenize, String.toList_ofList]
    exact htoks

/-- The name goes on with no exponent, and the second number has no digit before its point. -/
theorem tokenize_iff_cuts_exp : ∃ ps : List (Token Double × List Char), Cuts 0 "2exp .5".toList ps [] ∧
    (ps.map fun p => p.1.symbol) = [.number (Scalar.ofDecimal 2 0), .name "exp", .number (Scalar.ofDecimal 5 (-1))] ∧
    (ps.map fun p => p.1.offset).Pairwise (· < ·) ∧
    (∀ p ∈ ps, ∃ before after, "2exp .5".toList = before ++ (p.2 ++ after) ∧ p.1.offset = bytes before ∧
      Lexeme p.2 p.1.symbol ∧ Longest Double p.2 after) ∧
    ∃ toks : List (Token Double), tokenize (String.ofList ([' '].intercalate (ps.map Prod.snd))) = .ok toks ∧
      symbols toks = ps.map fun p => p.1.symbol := by
  have hend : Lexes ['.', '5'] [(.number (Scalar.ofDecimal 5 (-1)) : Symbol Double)] := by
    have hscan : Decimal.Numeral.scan ['.', '5'] = (⟨[], ['5'], 0⟩, []) := rfl
    obtain ⟨h, hhead⟩ := scanHead_number (α := Double) rfl hscan rfl
    exact .step hhead .nil
  have hname : Lexes ['e', 'x', 'p', ' ', '.', '5']
      [(.name "exp" : Symbol Double), .number (Scalar.ofDecimal 5 (-1))] :=
    .word (w := ['x', 'p']) rfl (List.all_eq_true.mp rfl) (.cons rfl rfl) (.blank rfl hend)
  have hlexes : Lexes "2exp .5".toList
      [(.number (Scalar.ofDecimal 2 0) : Symbol Double), .name "exp", .number (Scalar.ofDecimal 5 (-1))] := by
    have hscan : Decimal.Numeral.scan "2exp .5".toList = (⟨['2'], [], 0⟩, "exp .5".toList) := rfl
    obtain ⟨h, hhead⟩ := scanHead_number (α := Double) rfl hscan rfl
    exact .step hhead hname
  obtain ⟨toks, htoks, hsymbols⟩ := hlexes 0
  obtain ⟨ps, hcuts, rfl⟩ := ((tokenize_iff_cuts "2exp .5").1 toks).mp htoks
  refine ⟨ps, hcuts, ?_, (tokenize_iff_cuts "2exp .5").2.2 ps [] hcuts⟩
  rw [← hsymbols, symbols, List.map_map]
  rfl

variable (α) in
/-- Blanks and lexemes, whether or not they are as long as they can be. -/
inductive Composed : List Char → Prop
  | nil : Composed []
  | blank {c cs} (hc : isSpace c = true) (h : Composed cs) : Composed (c :: cs)
  | lexeme {w cs} {x : Symbol α} (hw : Lexeme w x) (h : Composed cs) : Composed (w ++ cs)

/-- **Lexemes alone do not make a text that has tokens**: the first number takes the digit of the second. -/
theorem not_tokenize_iff_composed :
    ¬((∃ toks : List (Token Double), tokenize "1.2." = .ok toks) ↔ Composed Double "1.2.".toList) ∧
      tokenize (α := Double) "1.2." = .error ⟨3, .invalidNumber⟩ := by
  have hnumber (d : Char) (hd : d.isDigit = true) : ∃ x : Symbol Double, Lexeme [d, '.'] x := by
    have hw : NumeralText ([d] ++ (['.'] ++ [])) ⟨[d], [], 0⟩ :=
      .mk (List.forall_mem_singleton.mpr hd) (.point (List.forall_mem_nil _)) .none
    exact ⟨_, .number hw rfl⟩
  obtain ⟨x, hx⟩ := hnumber '1' rfl
  obtain ⟨y, hy⟩ := hnumber '2' rfl
  have hcomposed : Composed Double "1.2.".toList := .lexeme hx (.lexeme hy .nil)
  have herror : tokenize (α := Double) "1.2." = .error ⟨3, .invalidNumber⟩ := by
    have hscan : Decimal.Numeral.scan ['1', '.', '2', '.'] = (⟨['1'], ['2'], 0⟩, ['.']) := rfl
    obtain ⟨h, hhead⟩ := scanHead_number (α := Double) rfl hscan rfl
    have hpoint : scanHead (α := Double) '.' [] = .error .invalidNumber := rfl
    show tokensFrom 0 ['1', '.', '2', '.'] = _
    rw [tokensFrom, hhead]
    dsimp only
    rw [tokensFrom, hpoint]
    rfl
  refine ⟨fun h => ?_, herror⟩
  obtain ⟨toks, htoks⟩ := h.mpr hcomposed
  cases htoks.symm.trans herror

end SignalFlow.Reader
