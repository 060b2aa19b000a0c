import SignalFlow.Proofs.Reader.Reread

/-!
# What expressions from text look like

The names of an expression from text are words other than `exp`, its lists have at least two items, and commas join
expressions on the left spine only (`shaped_ofText`). The reader finds names that are words and lists that are not empty
(`shaped_reads`); expanding the calls uses up every `exp` (`shaped_calls`); dissolving the groups leaves no list of one
item (`shaped_ungrouped`).
-/

namespace SignalFlow.Reader

open SignalFlow.Tree

variable {ι α : Type}

/-! ## Names -/

section Names

variable [Scalar α]

omit [Scalar α] in
theorem isName_wordSymbol {c : Char} {w : List Char} {x : String} (hc : startsName c = true)
    (hw : ∀ d ∈ w, inName d = true) (h : (wordSymbol (c :: w) : Symbol α) = .name x) : IsName x := by
  rw [wordSymbol] at h
  split at h
  case isTrue => cases h
  case isFalse hoo =>
    cases h
    refine ⟨⟨c, w, String.toList_ofList, hc, hw⟩, fun h => hoo ?_⟩
    rw [← String.toList_ofList (l := c :: w), h]
    rfl

theorem isName_of_scanHead {c : Char} {cs : List Char} {x : String}
    {rest : { rest : List Char // rest.length ≤ cs.length }}
    (h : scanHead (α := α) c cs = .ok (some (.name x), rest)) : IsName x := by
  rw [scanHead] at h
  split at h
  case isTrue => cases h
  case isFalse =>
    split at h
    case h_1 s hs =>
      cases h
      unfold sign? at hs
      split at hs <;> cases hs
    case h_2 =>
      split at h
      case isTrue =>
        dsimp only at h
        split at h <;> cases h
      case isFalse =>
        split at h
        case isTrue hc =>
          have hsymbol : (wordSymbol (c :: cs.takeWhile inName) : Symbol α) = .name x :=
            Option.some.inj (Prod.mk.inj (Except.ok.inj h)).1
          exact isName_wordSymbol hc (List.all_eq_true.mp List.all_takeWhile) hsymbol
        case isFalse => cases h

/-- **The names among the tokens of a text are words.** -/
theorem isName_of_tokensFrom {offset : Nat} {cs : List Char} {toks : List (Token α)}
    (h : tokensFrom offset cs = .ok toks) {x : String} (hx : .name x ∈ symbols toks) : IsName x := by
  fun_induction tokensFrom (α := α) offset cs generalizing toks with
  | case1 => cases h; cases hx
  | case2 => cases h
  | case3 => cases h
  | case4 offset c cs rest hle tokens htokens symbol hhead ih =>
    cases h
    rcases List.mem_cons.mp hx with rfl | hx
    · exact isName_of_scanHead hhead
    · exact ih htokens hx
  | case5 offset c cs rest hle tokens htokens hhead ih =>
    cases h
    exact ih htokens hx

end Names

/-! ## The tree that is read -/

/-- A node with a name that satisfies `N`, that is no comma, and that has at least `n` items if it is a list. -/
def Shaped (N : String → Prop) (n : Nat) : Tree ι α → Prop
  | .var _ x => N x
  | .list _ items => n ≤ items.length
  | .binary _ op _ _ => op ≠ .comma
  | _ => True

/-- The trees that a rule makes: only sequences have commas, on the spine. -/
def ShapedBy (N : String → Prop) (t : Term α) : Rule → Prop
  | .sequence => OnSpine (Shaped N 1) t
  | _ => t.Everywhere (Shaped N 1)

section Reading

variable [Scalar α] {N : String → Prop}

theorem mem_of_reads {R : Rule} {s r : List (Symbol α)} {t : Term α} (h : Reads R s t r) {x : Symbol α} (hx : x ∈ r) :
    x ∈ s := by
  obtain ⟨u, rfl, -⟩ := derives_of_reads h
  exact List.mem_append_right u hx

theorem shaped_negated {t : Term α} (h : t.Everywhere (Shaped N 1)) : (negated t).Everywhere (Shaped N 1) :=
  everywhere_negated h (fun _ _ _ => trivial) trivial

/-- **Names that are read are among the symbols, lists are not empty, and only sequences have commas.** -/
theorem shaped_reads {R : Rule} {s r : List (Symbol α)} {t : Term α} (h : Reads R s t r)
    (hN : ∀ x, .name x ∈ s → N x) : ShapedBy N t R := by
  induction h with
  | sequenceOne _ ih => exact onSpine_of_everywhere (ih hN)
  | sequenceMore ha _ iha ihb =>
    exact ⟨iha hN, ihb fun x hx => hN x (mem_of_reads ha (List.mem_cons_of_mem _ hx))⟩
  | additiveOne _ ih | termOne _ ih | signedOne _ ih | powerOne _ ih | exponentOne _ _ ih | runOne _ ih => exact ih hN
  | @additiveMore _ _ x op _ _ _ ha hop _ iha ihb =>
    have hcomma : op ≠ .comma := by
      rintro rfl
      cases x <;> cases hop
    exact everywhere_binary.mpr
      ⟨hcomma, iha hN, ihb fun x hx => hN x (mem_of_reads ha (List.mem_cons_of_mem _ hx))⟩
  | @termMore _ _ x op _ _ _ ha hop _ iha ihb =>
    have hcomma : op ≠ .comma := by
      rintro rfl
      cases x <;> cases hop
    exact everywhere_binary.mpr
      ⟨hcomma, iha hN, ihb fun x hx => hN x (mem_of_reads ha (List.mem_cons_of_mem _ hx))⟩
  | termBeside ha _ iha ihb | runMore ha _ iha ihb =>
    exact everywhere_binary.mpr ⟨nofun, iha hN, ihb fun x hx => hN x (mem_of_reads ha hx)⟩
  | powerMore ha _ iha ihb =>
    exact everywhere_binary.mpr
      ⟨nofun, iha hN, ihb fun x hx => hN x (mem_of_reads ha (List.mem_cons_of_mem _ hx))⟩
  | signedMinus _ ih | exponentMinus _ ih => exact shaped_negated (ih fun x hx => hN x (List.mem_cons_of_mem _ hx))
  | signedPlus _ ih | exponentPlus _ ih => exact ih fun x hx => hN x (List.mem_cons_of_mem _ hx)
  | number v r => exact everywhere_literal.mpr trivial
  | name x r => exact everywhere_var.mpr (hN x List.mem_cons_self)
  | infinity r => exact everywhere_infinity.mpr trivial
  | group _ ih => exact ih fun x hx => hN x (List.mem_cons_of_mem _ hx)
  | itemsOne _ ih => exact everywhere_list.mpr ⟨Nat.le_refl 1, List.forall_mem_singleton.mpr (ih hN)⟩
  | itemsMore ha _ iha ihb =>
    obtain ⟨-, hitems⟩ := everywhere_list.mp (iha hN)
    have hlast := ihb fun x hx => hN x (mem_of_reads ha (List.mem_cons_of_mem _ hx))
    refine everywhere_list.mpr ⟨?_, ?_⟩
    · show 1 ≤ _
      rw [List.length_append, List.length_singleton]
      omega
    · exact List.forall_mem_append.mpr ⟨hitems, List.forall_mem_singleton.mpr hlast⟩

end Reading

/-! ## Calls -/

section Calls

variable {N : String → Prop}

/-- The names that are left when the calls are expanded. -/
def NoExp (N : String → Prop) (x : String) : Prop := N x ∧ x ≠ expName

/-- What a call gets as its argument, if anything, has the shape of expanded trees. -/
def ArgumentShaped (N : String → Prop) (next : Option (Except CallFault (Term α))) : Prop :=
  ∀ t, next = some (.ok t) → t.Everywhere (Shaped (NoExp N) 1)

theorem argumentShaped_none {N : String → Prop} : ArgumentShaped N (none : Option (Except CallFault (Term α))) := nofun

/-- Expanded items are as many as before, each made of one of them. -/
theorem callsAll_eq_ok {ts us : List (Term α)} (h : callsAll ts = .ok us) :
    us.length = ts.length ∧ ∀ u ∈ us, ∃ t ∈ ts, ∃ k, calls t none = .ok (u, k) := by
  induction ts generalizing us with
  | nil =>
    cases h
    exact ⟨rfl, nofun⟩
  | cons t ts ih =>
    obtain ⟨⟨w, k⟩, hw, h⟩ := bind_eq_ok h
    obtain ⟨ws, hws, h⟩ := bind_eq_ok h
    cases h
    obtain ⟨hlength, hall⟩ := ih hws
    refine ⟨congrArg (· + 1) hlength, List.forall_mem_cons.mpr ⟨⟨t, List.mem_cons_self, k, hw⟩, fun u hu => ?_⟩⟩
    obtain ⟨t', ht', hcalls⟩ := hall u hu
    exact ⟨t', List.mem_cons_of_mem t ht', hcalls⟩

/-- **Whatever it gets as its argument, the tree expands to one without calls**, of the same shape otherwise. -/
def ExpandsShaped (N : String → Prop) (t : Term α) : Prop :=
  ∀ next u k, ArgumentShaped N next → calls t next = .ok (u, k) → u.Everywhere (Shaped (NoExp N) 1)

section

variable {t a b : Term α} {op : BinaryOp} {items : List (Term α)} {x : String}

theorem expandsShaped_var (hbase : N baseName) (hx : N x) : ExpandsShaped N (.var () x : Term α) := by
  intro next u k hnext hu
  by_cases hexp : x = expName
  · subst hexp
    cases next with
    | none =>
      rw [calls_call_alone] at hu
      cases hu
    | some argument =>
      obtain ⟨t, ht, hpow⟩ := map_eq_ok ((calls_call argument).symm.trans hu)
      cases hpow
      have hpowOp : BinaryOp.pow ≠ .comma := by decide
      exact everywhere_binary.mpr ⟨hpowOp, everywhere_var.mpr ⟨hbase, by decide⟩, hnext t (congrArg some ht)⟩
  · cases (calls_var hexp).symm.trans hu
    exact everywhere_var.mpr ⟨hx, hexp⟩

theorem expandsShaped_negate (h : ExpandsShaped N t) : ExpandsShaped N (.negate () t) := by
  intro next u k hnext hu
  obtain ⟨⟨w, k'⟩, hw, hpair⟩ := map_eq_ok hu
  cases hpair
  have hunder : ArgumentShaped N (underSign t next) := by
    cases t with
    | binary => exact argumentShaped_none
    | _ => exact hnext
  exact everywhere_negate.mpr ⟨trivial, h _ _ _ hunder hw⟩

theorem expandsShaped_product (ha : ExpandsShaped N a) (hb : ExpandsShaped N b)
    (hargument : ArgumentShaped N (some (argumentOf b))) : ExpandsShaped N (.binary () .mul a b) := by
  intro next u k hnext hu
  obtain ⟨⟨w, took⟩, hw, hu⟩ := bind_eq_ok (calls_product.symm.trans hu)
  have hleft := ha _ _ _ hargument hw
  cases took with
  | true =>
    cases hu
    exact hleft
  | false =>
    obtain ⟨⟨z, took⟩, hz, hu⟩ := bind_eq_ok hu
    cases hu
    have hlast : ArgumentShaped N (some (next.getD (.error .missingArguments))) := by
      intro t ht
      cases next with
      | none => cases ht
      | some argument => exact hnext t ht
    have hmul : BinaryOp.mul ≠ .comma := by decide
    exact everywhere_binary.mpr ⟨hmul, hleft, hb _ _ _ hlast hz⟩

theorem expandsShaped_binary (hop : op ≠ .mul) (hcomma : op ≠ .comma) (ha : ExpandsShaped N a)
    (hb : ExpandsShaped N b) : ExpandsShaped N (.binary () op a b) := by
  intro next u k _ hu
  obtain ⟨⟨w, k₁⟩, hw, hu⟩ := bind_eq_ok ((calls_binary hop).symm.trans hu)
  obtain ⟨⟨z, k₂⟩, hz, hu⟩ := bind_eq_ok hu
  cases hu
  exact everywhere_binary.mpr ⟨hcomma, ha none _ _ argumentShaped_none hw, hb none _ _ argumentShaped_none hz⟩

theorem expandsShaped_list (hitems : 1 ≤ items.length) (h : ∀ t ∈ items, ExpandsShaped N t) :
    ExpandsShaped N (.list () items) := by
  intro next u k _ hu
  obtain ⟨us, hus, hpair⟩ := map_eq_ok hu
  cases hpair
  obtain ⟨hsame, hfrom⟩ := callsAll_eq_ok hus
  refine everywhere_list.mpr ⟨hitems.trans_eq hsame.symm, fun w hw => ?_⟩
  obtain ⟨t, ht, k, hcalls⟩ := hfrom w hw
  exact h t ht none _ _ argumentShaped_none hcalls

/-- What a list gives to a call in front of it, if it has one item, is this item. -/
theorem argumentShaped_list (h : ∀ t ∈ items, ExpandsShaped N t) :
    ArgumentShaped N (some (argumentOf (.list () items))) := by
  intro u hu
  match items with
  | [] | _ :: _ :: _ => cases hu
  | [t] =>
    obtain ⟨⟨w, k⟩, hw, rfl⟩ := map_eq_ok (Option.some.inj hu)
    exact h t List.mem_cons_self none _ _ argumentShaped_none hw

end

/-- **Expanding the calls of a tree uses up every `exp`** and keeps its shape otherwise; so does what the tree gives to
a call in front of it. -/
theorem shaped_calls (hbase : N baseName) {t : Term α} (h : t.Everywhere (Shaped N 1)) :
    ExpandsShaped N t ∧ ArgumentShaped N (some (argumentOf t)) := by
  induction t using nodeInduction with
  | literal l v =>
    refine ⟨fun next u k _ hu => ?_, nofun⟩
    cases hu
    exact everywhere_literal.mpr trivial
  | var l x => exact ⟨expandsShaped_var hbase (everywhere_var.mp h), nofun⟩
  | infinity l =>
    refine ⟨fun next u k _ hu => ?_, nofun⟩
    cases hu
    exact everywhere_infinity.mpr trivial
  | negate l t ih => exact ⟨expandsShaped_negate (ih (everywhere_negate.mp h).2).1, nofun⟩
  | binary l op a b iha ihb =>
    obtain ⟨hcomma, ha, hb⟩ := everywhere_binary.mp h
    refine ⟨?_, nofun⟩
    by_cases hop : op = .mul
    · subst hop
      exact expandsShaped_product (iha ha).1 (ihb hb).1 (ihb hb).2
    · exact expandsShaped_binary hop hcomma (iha ha).1 (ihb hb).1
  | list l items ih =>
    obtain ⟨hlength, hall⟩ := everywhere_list.mp h
    have hitems : ∀ t ∈ items, ExpandsShaped N t := fun t ht => (ih t ht (hall t ht)).1
    exact ⟨expandsShaped_list hlength hitems, argumentShaped_list hitems⟩

/-- Commas on the spine join what is expanded on its own. -/
theorem onSpine_calls (hbase : N baseName) {t u : Term α} {k : Bool} (h : OnSpine (Shaped N 1) t)
    (hu : calls t none = .ok (u, k)) : OnSpine (Shaped (NoExp N) 1) u := by
  induction t using OnSpine.induct generalizing u k with
  | case1 l a b ih =>
    have hcomma : BinaryOp.comma ≠ .mul := by decide
    obtain ⟨⟨w, k₁⟩, hw, hu⟩ := bind_eq_ok ((calls_binary hcomma).symm.trans hu)
    obtain ⟨⟨z, k₂⟩, hz, hu⟩ := bind_eq_ok hu
    cases hu
    exact ⟨ih h.1 hw, (shaped_calls hbase h.2).1 none _ _ argumentShaped_none hz⟩
  | case2 t ht =>
    exact onSpine_of_everywhere ((shaped_calls hbase ((onSpine_iff ht).mp h)).1 none _ _ argumentShaped_none hu)

end Calls

/-! ## Groups -/

section Groups

variable {N : String → Prop} {t : Term α}

/-- **Dissolving the groups leaves no list of one item.** -/
theorem shaped_ungrouped (h : t.Everywhere (Shaped N 1)) : (ungrouped t).Everywhere (Shaped N 2) := by
  induction t using nodeInduction with
  | literal l v => exact everywhere_literal.mpr trivial
  | var l x =>
    have hname : Shaped N 1 (var l x : Term α) := everywhere_var.mp h
    exact everywhere_var.mpr hname
  | infinity l => exact everywhere_infinity.mpr trivial
  | negate l t ih => exact everywhere_negate.mpr ⟨trivial, ih (everywhere_negate.mp h).2⟩
  | binary l op a b iha ihb =>
    obtain ⟨hcomma, ha, hb⟩ := everywhere_binary.mp h
    exact everywhere_binary.mpr ⟨hcomma, iha ha, ihb hb⟩
  | list l items ih =>
    obtain ⟨hlength, hall⟩ := everywhere_list.mp h
    match items with
    | [] => exact absurd hlength (Nat.not_succ_le_zero 0)
    | [t] => exact ih t List.mem_cons_self (hall t List.mem_cons_self)
    | t :: u :: rest =>
      have htwo : 2 ≤ (t :: u :: rest).length := Nat.le_add_left 2 rest.length
      rw [ungrouped_list htwo]
      refine everywhere_list.mpr ⟨htwo.trans_eq (List.length_map ..).symm, ?_⟩
      exact List.forall_mem_map.mpr fun v hv => ih v hv (hall v hv)

theorem onSpine_ungrouped (h : OnSpine (Shaped N 1) t) : OnSpine (Shaped N 2) (ungrouped t) := by
  induction t using OnSpine.induct with
  | case1 l a b ih => exact ⟨ih h.1, shaped_ungrouped h.2⟩
  | case2 t ht => exact onSpine_of_everywhere (shaped_ungrouped ((onSpine_iff ht).mp h))

end Groups

/-! ## Labels -/

section Labels

variable {κ : Type} {f : ι → κ} {N : String → Prop} {n : Nat} {t : Tree ι α}

theorem everywhere_relabel {p : Tree κ α → Prop} :
    (t.relabel f).Everywhere p ↔ t.Everywhere fun u => p (u.relabel f) := by
  induction t using nodeInduction with
  | literal l v | var l x | infinity l => simp [relabel]
  | negate l t ih => simp [relabel, ih]
  | binary l op a b iha ihb => simp [relabel, iha, ihb]
  | list l items ih =>
    have hitems : (∀ u ∈ items.map (relabel f), u.Everywhere p) ↔
        ∀ u ∈ items, u.Everywhere fun u => p (u.relabel f) := by
      rw [List.forall_mem_map]
      exact forall₂_congr ih
    rw [relabel, relabelAll_eq, everywhere_list, everywhere_list, hitems, relabel, relabelAll_eq]

theorem shaped_relabel : Shaped N n (t.relabel f) ↔ Shaped N n t := by
  cases t with
  | list l items =>
    show n ≤ (relabelAll f items).length ↔ n ≤ items.length
    rw [relabelAll_eq, List.length_map]
  | _ => exact Iff.rfl

theorem onSpine_relabel : OnSpine (Shaped N n) (t.relabel f) ↔ OnSpine (Shaped N n) t := by
  have hall : ∀ t : Tree ι α, (t.relabel f).Everywhere (Shaped N n) ↔ t.Everywhere (Shaped N n) := fun t =>
    everywhere_relabel.trans (forall₂_congr fun _ _ => shaped_relabel)
  induction t using OnSpine.induct with
  | case1 l a b ih => exact and_congr ih (hall b)
  | case2 t ht =>
    rw [onSpine_iff ht, onSpine_iff, hall]
    intro l a b h
    cases t <;> cases h
    exact ht _ _ _ rfl

end Labels

/-! ## Texts -/

variable [Scalar α]

/-- The tree of a text by its symbols. -/
theorem readTerm_of_reads {text : String} {syms : List (Symbol α)} {t : Term α} (hlexes : Lexes text.toList syms)
    (hreads : Reads .sequence syms t []) : readTerm text = .ok t := by
  obtain ⟨toks, htoks, rfl⟩ := hlexes 0
  rw [readTerm_of_tokenize htoks, ofTokens_eq_ok_iff.mpr hreads]

/-- The expression of a text by its symbols, the tree that is read and what its calls expand to. -/
theorem ofText_of_reads (text : String) {syms : List (Symbol α)} {t u : Term α} {k : Bool}
    (hlexes : Lexes text.toList syms) (hreads : Reads .sequence syms t []) (hcalls : calls t none = .ok (u, k)) :
    ∃ e, Expr.ofText text = .ok e ∧ e.tree.term = ungrouped u := by
  have hterm := map_ofText (α := α) text
  rw [readTerm_of_reads hlexes hreads] at hterm
  simp only [settled, hcalls] at hterm
  exact map_eq_ok hterm

/-- The error of a text by its symbols and the tree that is read. -/
theorem ofText_error_of_reads (text : String) {syms : List (Symbol α)} {t : Term α} {f : CallFault}
    (hlexes : Lexes text.toList syms) (hreads : Reads .sequence syms t []) (hcalls : calls t none = .error f) :
    (Expr.ofText text : Except ExprError (Expr α)) = .error (.malformedCall f) := by
  have hterm := map_ofText (α := α) text
  rw [readTerm_of_reads hlexes hreads] at hterm
  simp only [settled, hcalls] at hterm
  cases htext : (Expr.ofText text : Except ExprError (Expr α)) with
  | error e =>
    rw [htext] at hterm
    exact congrArg Except.error (Except.error.inj hterm)
  | ok e =>
    rw [htext] at hterm
    cases hterm

/-- **What an expression from text comes from**: tokens, the tree that is read off them, and its calls expanded. -/
theorem ofText_eq_ok {text : String} {e : Expr α} (h : Expr.ofText text = .ok e) :
    ∃ (toks : List (Token α)) (t : Term α) (r : Term α × Bool), tokenize text = .ok toks ∧
      Reads .sequence (symbols toks) t [] ∧ calls t none = .ok r ∧ e.tree.term = ungrouped r.1 := by
  have hterm := map_ofText (α := α) text
  rw [h] at hterm
  cases hread : (readTerm text : Except ReadError (Term α)) with
  | error _ =>
    rw [hread] at hterm
    cases hterm
  | ok t =>
    rw [hread] at hterm
    obtain ⟨toks, htoks, hparsed⟩ := bind_eq_ok hread
    cases hcalls : calls t none with
    | error f =>
      simp only [settled, hcalls] at hterm
      cases hterm
    | ok r =>
      simp only [settled, hcalls] at hterm
      exact ⟨toks, t, r, htoks, reads_of_ofTokens hparsed, hcalls, Except.ok.inj hterm⟩

omit [Scalar α] in
theorem isName_baseName : IsName baseName := ⟨⟨'e', [], rfl, rfl, nofun⟩, by decide⟩

/-- **The shape of an expression from text.** Its names are words other than `exp`, its lists have at least two items,
and its commas stand on the left spine from the root. -/
theorem shaped_ofText {text : String} {e : Expr α} (h : Expr.ofText text = .ok e) :
    OnSpine (Shaped (NoExp IsName) 2) e.tree := by
  obtain ⟨toks, t, r, htoks, hreads, hcalls, hterm⟩ := ofText_eq_ok h
  have hshaped : OnSpine (Shaped IsName 1) t :=
    shaped_reads (R := .sequence) hreads fun x hx => isName_of_tokensFrom htoks hx
  have hfinal : OnSpine (Shaped (NoExp IsName) 2) e.tree.term := by
    rw [hterm]
    exact onSpine_ungrouped (onSpine_calls isName_baseName hshaped hcalls)
  exact onSpine_relabel.mp hfinal

end SignalFlow.Reader
