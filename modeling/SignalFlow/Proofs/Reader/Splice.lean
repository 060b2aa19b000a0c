import SignalFlow.Proofs.Reader.Image
import SignalFlow.Proofs.Reader.Placement
import SignalFlow.Proofs.Reader.RoundTrip

/-!
# Texts with a call in place of a power

If a list of symbols with `(e^(X))` in it is read, so is the list with `exp(X)` instead, and the trees are exchanged
(`reads_callSymbols`). This goes by the rules of the grammar: `Spliced` says what becomes of a reading if the place of
the power is ahead of it, has been passed, or is where it ends, and every rule keeps this (`spliced`).

So a text with the call in it is an equal expression, with two exceptions: an exponent behind the place, and symbols in
front of it that take the variable away from its list (`admitsCall`). There the text with the call is never read, since
every call needs its list right behind it (`ofText_call`).
-/

namespace SignalFlow.Reader

open SignalFlow.Tree

variable {α : Type}

/-! ## Symbols -/

/-- Symbols in parentheses. -/
def parenthesized (s : List (Symbol α)) : List (Symbol α) := .opening :: (s ++ [.closing])

/-- The symbols of `(e^(X))`. -/
def powerSymbols (X : List (Symbol α)) : List (Symbol α) :=
  parenthesized (.name baseName :: .caret :: parenthesized X)

/-- The symbols of `exp(X)`. -/
def callSymbols (X : List (Symbol α)) : List (Symbol α) := .name expName :: parenthesized X

/-- **Whether a call may stand behind symbols.** Signs aside, the last of them is no `/` and no `%`, and it does not
make what follows the argument of a call. -/
def admitsCall (U : List (Symbol α)) : Bool :=
  match U.reverse.dropWhile Symbol.isSign with
  | .slash :: _ | .percent :: _ => false
  | .name f :: _ => f != expName
  | .star :: .name f :: _ => f != expName
  | _ => true

theorem dropWhile_reverse {P S : List (Symbol α)} {y : Symbol α} (hy : y.isSign = false)
    (hS : ∀ z ∈ S, z.isSign = true) :
    (P ++ y :: S).reverse.dropWhile Symbol.isSign = y :: P.reverse := by
  have hsigns : ∀ z ∈ S.reverse, z.isSign = true := fun z hz => hS z (List.mem_reverse.mp hz)
  rw [List.reverse_append, List.reverse_cons, List.append_assoc, List.dropWhile_append_of_pos hsigns,
    List.singleton_append, List.dropWhile_cons_of_neg (Bool.eq_false_iff.mp hy)]

/-- A call may stand behind the last symbols if it may stand behind all. -/
theorem admitsCall_of_append {P U : List (Symbol α)} (h : admitsCall (P ++ U) = true) : admitsCall U = true := by
  rw [admitsCall, List.reverse_append, List.dropWhile_append] at h
  rw [admitsCall]
  match hU : U.reverse.dropWhile Symbol.isSign with
  | [] => rfl
  | y :: W =>
    rw [hU] at h
    cases y with
    | slash | percent => exact h
    | name f => exact h
    | star =>
      match W with
      | [] => rfl
      | z :: W => cases z <;> exact h
    | _ => rfl

/-- Where no call may stand, there is a division, or a call in front that takes what follows. -/
theorem exists_of_not_admitsCall {U : List (Symbol α)} (h : admitsCall U = false) (hU : undivided U = true) :
    ∃ P S, U = P ++ .name expName :: S ∧ ∀ z ∈ S, z.isSign = true ∨ z = .star := by
  have hsplit := List.takeWhile_append_dropWhile (p := Symbol.isSign) (l := U.reverse)
  have hsigns : ∀ z ∈ U.reverse.takeWhile Symbol.isSign, z.isSign = true :=
    List.all_eq_true.mp List.all_takeWhile
  generalize U.reverse.takeWhile Symbol.isSign = S at hsplit hsigns
  rw [admitsCall] at h
  rw [undivided] at hU
  cases hrest : U.reverse.dropWhile Symbol.isSign with
  | nil =>
    rw [hrest] at h
    cases h
  | cons y rest =>
    rw [hrest] at h hU hsplit
    cases y with
    | slash | percent => cases hU
    | name f =>
      obtain rfl : f = expName := by simpa using h
      refine ⟨rest.reverse, S.reverse, ?_, fun z hz => .inl (hsigns z (List.mem_reverse.mp hz))⟩
      rw [← List.reverse_reverse U, ← hsplit]
      simp
    | star =>
      cases rest with
      | nil => cases h
      | cons y rest =>
        cases y with
        | name f =>
          obtain rfl : f = expName := by simpa using h
          refine ⟨rest.reverse, .star :: S.reverse, ?_, ?_⟩
          · rw [← List.reverse_reverse U, ← hsplit]
            simp
          · intro z hz
            rcases List.mem_cons.mp hz with rfl | hz
            · exact .inr rfl
            · exact .inl (hsigns z (List.mem_reverse.mp hz))
        | _ => cases h
    | _ => cases h

section Reading

variable [Scalar α]

/-! ## Reading more -/

/-- **What is read does not depend on what follows**, if nothing joins side by side. -/
theorem reads_append {R : Rule} {s r w : List (Symbol α)} {t : Term α} (h : Reads R s t r) (hw : Ends w) :
    Reads R (s ++ w) t (r ++ w) := by
  induction h with
  | sequenceOne _ ih => exact .sequenceOne ih
  | sequenceMore _ _ iha ihb => exact .sequenceMore iha ihb
  | additiveOne _ ih => exact .additiveOne ih
  | additiveMore _ hop _ iha ihb => exact .additiveMore iha hop ihb
  | termOne _ ih => exact .termOne ih
  | termMore _ hop _ iha ihb => exact .termMore iha hop ihb
  | termBeside _ _ iha ihb => exact .termBeside iha ihb
  | signedOne _ ih => exact .signedOne ih
  | signedMinus _ ih => exact .signedMinus ih
  | signedPlus _ ih => exact .signedPlus ih
  | powerOne _ ih => exact .powerOne ih
  | powerMore _ _ iha ihb => exact .powerMore iha ihb
  | @exponentOne s t r _ hr ih =>
    refine .exponentOne ih ?_
    match r with
    | [] => exact hw
    | y :: r => exact hr
  | exponentMinus _ ih => exact .exponentMinus ih
  | exponentPlus _ ih => exact .exponentPlus ih
  | runOne _ ih => exact .runOne ih
  | runMore _ _ iha ihb => exact .runMore iha ihb
  | number v r => exact .number v _
  | name x r => exact .name x _
  | infinity r => exact .infinity _
  | group _ ih => exact .group ih
  | itemsOne _ ih => exact .itemsOne ih
  | itemsMore _ _ iha ihb => exact .itemsMore iha ihb

section

variable {X : List (Symbol α)} {x : Term α}

/-- What is read in parentheses. -/
theorem reads_parenthesized (hX : Reads .additive X x []) (V : List (Symbol α)) :
    Reads .atom (parenthesized X ++ V) (.list () [x]) V := by
  have hinner : Reads .additive (X ++ .closing :: V) x (.closing :: V) := reads_append hX (ends_cons.mpr rfl)
  have hsymbols : parenthesized X ++ V = .opening :: (X ++ .closing :: V) := by simp [parenthesized]
  rw [hsymbols]
  exact .group (.itemsOne hinner)

theorem reads_powerSymbols (hX : Reads .additive X x []) (V : List (Symbol α)) :
    Reads .atom (powerSymbols X ++ V) (powerGroup x) V := by
  have hexponent : Reads .exponent (parenthesized X) (.list () [x]) [] := by
    have hlist := reads_parenthesized hX []
    rw [List.append_nil] at hlist
    exact .exponentOne (.runOne (.powerOne hlist)) nofun
  exact reads_parenthesized (.additiveOne (.termOne (.signedOne (.powerMore (.name _ _) hexponent)))) V

end

/-- **A call ends the symbols** of what is read as a product that ends in it. -/
theorem ends_of_endsInCall {R : Rule} {s r : List (Symbol α)} {t : Term α} (h : Reads R s t r)
    (ht : endsInCall t = true) : ∃ u, s = u ++ .name expName :: r := by
  have hnegated : ∀ t : Term α, endsInCall (negated t) = true → endsInCall t = true := by
    intro t ht
    cases t with
    | literal => cases ht
    | _ => exact (Bool.and_eq_true_iff.mp ht).2
  induction h with
  | sequenceOne _ ih | additiveOne _ ih | termOne _ ih | signedOne _ ih | powerOne _ ih | exponentOne _ _ ih
  | runOne _ ih => exact ih ht
  | sequenceMore | powerMore | group | itemsOne | itemsMore | number | infinity => cases ht
  | @additiveMore _ _ y op _ _ _ _ hop => cases y <;> cases hop <;> cases ht
  | @termMore _ _ y op _ _ _ ha hop _ _ ihb =>
    obtain ⟨u, rfl, -⟩ := derives_of_reads ha
    obtain ⟨v, rfl⟩ := ihb (Bool.and_eq_true_iff.mp ht).2
    exact ⟨u ++ y :: v, by simp⟩
  | termBeside ha _ _ ihb | runMore ha _ _ ihb =>
    obtain ⟨u, rfl, -⟩ := derives_of_reads ha
    obtain ⟨v, rfl⟩ := ihb (Bool.and_eq_true_iff.mp ht).2
    exact ⟨u ++ v, by simp⟩
  | signedMinus _ ih | exponentMinus _ ih =>
    obtain ⟨u, rfl⟩ := ih (hnegated _ ht)
    exact ⟨.minus :: u, rfl⟩
  | signedPlus _ ih | exponentPlus _ ih =>
    obtain ⟨u, rfl⟩ := ih ht
    exact ⟨.plus :: u, rfl⟩
  | name x r =>
    rw [endsInCall, beq_iff_eq] at ht
    subst ht
    exact ⟨[], rfl⟩

/-! ## Splicing -/

/-- The rules after which the roots of two exchanged trees are the same. -/
def Rule.keepsRoot : Rule → Bool
  | .items => true
  | R => R.splits

variable {X V : List (Symbol α)} {x : Term α}

/-- **What becomes of reading `t` by a rule**, up to `r`, if the symbols `U` are followed by a call in place of the
power. -/
inductive Spliced (X V : List (Symbol α)) (x : Term α) (R : Rule) (U : List (Symbol α)) (t : Term α)
    (r : List (Symbol α)) : Prop
  /-- The same is read if the place is not reached. -/
  | ahead {U' : List (Symbol α)} : r = U' ++ (powerSymbols X ++ V) →
      Reads R (U ++ (callSymbols X ++ V)) t (U' ++ (callSymbols X ++ V)) → Spliced X V x R U t r
  /-- An exchanged tree is read if the place is passed. -/
  | passed {k : Bool} {u : Term α} : Exchanged x k t u → (R.keepsRoot = true → k = true) →
      Reads R (U ++ (callSymbols X ++ V)) u r → Spliced X V x R U t r
  /-- The variable is read if the power is all that is read. -/
  | split (n : Nat) : R.splits = true → (∀ y ∈ U, y.isSign = true) → r = V → t = negatedTimes (powerGroup x) n →
      Reads R (U ++ (callSymbols X ++ V)) (negatedTimes (.var () expName) n) (parenthesized X ++ V) →
      Spliced X V x R U t r

omit [Scalar α] in
/-- A symbol that does not open a group stands in front of the power. -/
theorem cons_eq_append_power {y : Symbol α} {s U : List (Symbol α)} (h : y :: s = U ++ (powerSymbols X ++ V))
    (hy : y ≠ .opening) : ∃ U', U = y :: U' ∧ s = U' ++ (powerSymbols X ++ V) :=
  cons_eq_append h hy

section Admission

variable {u U : List (Symbol α)}

omit [Scalar α] in
/-- Behind a call that would take the group there is no place. -/
theorem admitsCall_behind_call (hU : ∀ z ∈ U, z.isSign = true) : admitsCall (u ++ .name expName :: U) = false := by
  rw [admitsCall, dropWhile_reverse rfl hU]
  exact bne_self_eq_false expName

omit [Scalar α] in
/-- Behind an operator between factors there is a place only if it multiplies, and no call stands in front of it. -/
theorem admitsCall_behind_operator {y : Symbol α} {op : BinaryOp} (hop : factorOp? y = some op)
    (hU : ∀ z ∈ U, z.isSign = true) : (admitsCall (u ++ y :: U) = true → op = .mul) ∧
      admitsCall (u ++ .name expName :: y :: U) = false := by
  have hfront : u ++ .name expName :: y :: U = (u ++ [.name expName]) ++ y :: U := by simp
  rw [hfront]
  cases y with
  | star =>
    cases hop
    refine ⟨fun _ => rfl, ?_⟩
    rw [admitsCall, dropWhile_reverse rfl hU, List.reverse_append]
    exact bne_self_eq_false expName
  | slash | percent =>
    rw [admitsCall, admitsCall, dropWhile_reverse rfl hU, dropWhile_reverse rfl hU]
    exact ⟨nofun, rfl⟩
  | _ => cases hop

end Admission

namespace Spliced

variable {R R₁ R₂ : Rule} {s m r U : List (Symbol α)} {t a b : Term α}

/-- A rule that reads what another rule reads. -/
theorem lift (mk : ∀ {s : List (Symbol α)} {t r}, Reads R₁ s t r → Reads R s t r)
    (hkeeps : R.keepsRoot = true → R₁.keepsRoot = true) (hsplits : R₁.splits = true → R.splits = true)
    (h : Spliced X V x R₁ U t r) : Spliced X V x R U t r := by
  cases h with
  | ahead hr h => exact .ahead hr (mk h)
  | passed hex hk h => exact .passed hex (fun hR => hk (hkeeps hR)) (mk h)
  | split n hR hU hr ht h => exact .split n (hsplits hR) hU hr ht (mk h)

/-- A rule that goes on with factors side by side takes in both parts of a call. -/
theorem close (hX : Reads .additive X x []) (mk : ∀ {s : List (Symbol α)} {t r}, Reads R₁ s t r → Reads R s t r)
    (beside : ∀ {s : List (Symbol α)} {c m d r}, Reads R s c m → Reads .power m d r → Reads R s (.binary () .mul c d) r)
    (hkeeps : R.keepsRoot = false) (h : Spliced X V x R₁ U t r) : Spliced X V x R U t r := by
  have hroot : ∀ k : Bool, R.keepsRoot = true → k = true := fun _ h => absurd h (Bool.eq_false_iff.mp hkeeps)
  cases h with
  | ahead hr h => exact .ahead hr (mk h)
  | passed hex hk h => exact .passed hex (hroot _) (mk h)
  | split n hR hU hr ht h =>
    subst hr ht
    exact .passed (.first n) (hroot _) (beside (mk h) (.powerOne (reads_parenthesized hX _)))

/-- Two parts with `mid` between them. -/
theorem join (mid : List (Symbol α)) {op : BinaryOp} (hX : Reads .additive X x []) (hV : Below 4 V)
    (hmid : mid = [] ∨ ∃ y, mid = [y] ∧ y ≠ .opening)
    (mk : ∀ {s : List (Symbol α)} {a m b r}, Reads R₁ s a (mid ++ m) → Reads R₂ m b r → Reads R s (.binary () op a b) r)
    (hkeeps : op = .mul → R₂.keepsRoot = true) (hfirst : R₁.splits = true → mid = [.caret])
    (hsecond : R₂.splits = true →
      (∀ {s : List (Symbol α)} {c m d r}, Reads R s c m → Reads .power m d r → Reads R s (.binary () .mul c d) r) ∧
      ∀ u U, (∀ z ∈ U, z.isSign = true) → (admitsCall (u ++ (mid ++ U)) = true → op = .mul) ∧
        admitsCall (u ++ .name expName :: (mid ++ U)) = false)
    (ha : Reads R₁ s a (mid ++ m)) (hb : Reads R₂ m b r)
    (iha : ∀ U, s = U ++ (powerSymbols X ++ V) → admitsCall U = true → Spliced X V x R₁ U a (mid ++ m))
    (ihb : ∀ U, m = U ++ (powerSymbols X ++ V) → admitsCall U = true → Spliced X V x R₂ U b r)
    (hs : s = U ++ (powerSymbols X ++ V)) (hU : admitsCall U = true) : Spliced X V x R U (.binary () op a b) r := by
  cases iha U hs hU with
  | passed hex _ h => exact .passed (.left op b hex) (fun _ => rfl) (mk h hb)
  | split n hR _ hr _ _ =>
    rw [hfirst hR] at hr
    subst hr
    exact absurd (below_cons.mp hV) (Nat.lt_irrefl 4)
  | @ahead U₁ hr h =>
    obtain ⟨U₂, rfl, hm⟩ : ∃ U₂, U₁ = mid ++ U₂ ∧ m = U₂ ++ (powerSymbols X ++ V) := by
      rcases hmid with rfl | ⟨y, rfl, hy⟩
      · exact ⟨U₁, rfl, hr⟩
      · exact cons_eq_append_power hr hy
    obtain ⟨u, rfl⟩ := exists_front ha hs hr
    have hU₂ : admitsCall U₂ = true := admitsCall_of_append (admitsCall_of_append hU)
    rw [List.append_assoc mid U₂] at h
    cases ihb U₂ hm hU₂ with
    | ahead hr' h' => exact .ahead hr' (mk h h')
    | passed hex hk h' =>
      exact .passed (.right op a hex fun hop => hk (hkeeps hop)) (fun _ => rfl) (mk h h')
    | split n hR hsigns hr' ht h' =>
      obtain ⟨beside, hadmits⟩ := hsecond hR
      subst hr' ht
      obtain rfl : op = .mul := (hadmits u U₂ hsigns).1 hU
      have hcall : endsInCall a = false := by
        refine Bool.eq_false_iff.mpr fun hcall => ?_
        obtain ⟨v, hv⟩ := ends_of_endsInCall ha hcall
        have hfront : u ++ (mid ++ U₂) = v ++ .name expName :: (mid ++ U₂) := by
          refine (List.append_left_inj (powerSymbols X ++ r)).mp ?_
          rw [← hs, hv, hm]
          simp
        rw [hfront, (hadmits v U₂ hsigns).2] at hU
        cases hU
      exact .passed (.next n hcall) (fun _ => rfl) (beside (mk h h') (.powerOne (reads_parenthesized hX _)))

/-- The items of a list, up to the one that is read last. -/
theorem joinItems {ts : List (Term α)}
    (ha : Reads .items s (.list () ts) (.comma :: m)) (hb : Reads .additive m t r)
    (iha : ∀ U, s = U ++ (powerSymbols X ++ V) → admitsCall U = true →
      Spliced X V x .items U (.list () ts) (.comma :: m))
    (ihb : ∀ U, m = U ++ (powerSymbols X ++ V) → admitsCall U = true → Spliced X V x .additive U t r)
    (hs : s = U ++ (powerSymbols X ++ V)) (hU : admitsCall U = true) :
    Spliced X V x .items U (.list () (ts ++ [t])) r := by
  cases iha U hs hU with
  | split n hR => cases hR
  | passed hex hk h =>
    obtain rfl := hk rfl
    obtain ⟨us, rfl, hmore⟩ := hex.append_items
    exact .passed (hmore [t]) (fun _ => rfl) (.itemsMore h hb)
  | ahead hr h =>
    obtain ⟨U₂, rfl, hm⟩ := cons_eq_append_power hr nofun
    obtain ⟨u, rfl⟩ := exists_front ha hs hr
    cases ihb U₂ hm (admitsCall_of_append (P := [.comma]) (admitsCall_of_append hU)) with
    | split n hR => cases hR
    | ahead hr' h' => exact .ahead hr' (.itemsMore h h')
    | passed hex _ h' => exact .passed (.item ts [] hex) (fun _ => rfl) (.itemsMore h h')

/-- Behind a sign that makes `f t` of `t`. -/
theorem sign {y : Symbol α} (hy : y.isSign = true) {f : Term α → Term α} (d : Nat)
    (mk : ∀ {s : List (Symbol α)} {t r}, Reads R s t r → Reads R (y :: s) (f t) r)
    (hex : ∀ {k t u}, Exchanged x k t u → ∃ k', Exchanged x k' (f t) (f u) ∧ (k = true → k' = true))
    (hf : ∀ (t : Term α) n, f (negatedTimes t n) = negatedTimes t (n + d))
    (ih : ∀ U, s = U ++ (powerSymbols X ++ V) → admitsCall U = true → Spliced X V x R U t r)
    (hs : y :: s = U ++ (powerSymbols X ++ V)) (hU : admitsCall U = true) : Spliced X V x R U (f t) r := by
  obtain ⟨U₂, rfl, hm⟩ := cons_eq_append_power hs (by rintro rfl; cases hy)
  cases ih U₂ hm (admitsCall_of_append (P := [y]) hU) with
  | ahead hr h => exact .ahead hr (mk h)
  | passed hex' hk h =>
    obtain ⟨k', hex', hk'⟩ := hex hex'
    exact .passed hex' (fun hR => hk' (hk hR)) (mk h)
  | split n hR hsigns hr ht h =>
    subst ht
    refine .split (n + d) hR (List.forall_mem_cons.mpr ⟨hy, hsigns⟩) hr (hf _ n) ?_
    rw [← hf]
    exact mk h

/-- An exponent still ends where no power follows: the call begins a power as the group did. -/
theorem exponent (hstop : ∀ y ∈ r.head?, y.startsAtom = false) (h : Spliced X V x .run U t r) :
    Spliced X V x .exponent U t r := by
  cases h with
  | split n hR => cases hR
  | passed hex _ h => exact .passed hex nofun (.exponentOne h hstop)
  | @ahead U' hr h =>
    subst hr
    refine .ahead rfl (.exponentOne h ?_)
    match U' with
    | [] => exact absurd (hstop .opening rfl) nofun
    | y :: U' => exact hstop

/-- A group: the power itself, or one with the place in it. -/
theorem group {ts : List (Term α)} (hX : Reads .additive X x [])
    (hitems : Reads .items s (.list () ts) (.closing :: r))
    (ih : ∀ U, s = U ++ (powerSymbols X ++ V) → admitsCall U = true →
      Spliced X V x .items U (.list () ts) (.closing :: r))
    (hs : .opening :: s = U ++ (powerSymbols X ++ V)) (hU : admitsCall U = true) :
    Spliced X V x .atom U (.list () ts) r := by
  match U, hs with
  | [], hs =>
    have hatom : Reads .atom (powerSymbols X ++ V) (.list () ts) r := by
      have hgroup := Reads.group hitems
      rw [hs] at hgroup
      exact hgroup
    obtain ⟨ht, hr⟩ := hatom.unique_atom (reads_powerSymbols hX V)
    exact .split 0 rfl nofun hr ht (.name expName _)
  | y :: U, hs =>
    obtain ⟨rfl, hinner⟩ := List.cons.inj hs
    cases ih U hinner (admitsCall_of_append (P := [.opening]) hU) with
    | split n hR => cases hR
    | passed hex hk h =>
      obtain rfl := hk rfl
      obtain ⟨us, rfl, -⟩ := hex.append_items
      exact .passed hex (fun _ => rfl) (.group h)
    | ahead hr h =>
      obtain ⟨U', rfl, hrest⟩ := cons_eq_append_power hr nofun
      exact .ahead hrest (.group h)

/-- The first item of a list. -/
theorem item (h : Spliced X V x .additive U t r) : Spliced X V x .items U (.list () [t]) r := by
  cases h with
  | split n hR => cases hR
  | passed hex _ h => exact .passed (.item [] [] hex) (fun _ => rfl) (.itemsOne h)
  | ahead hr h => exact .ahead hr (.itemsOne h)

end Spliced

/-- **Reading with a call in place of the power**, one case for every rule. The power stands in front of no exponent and
in a place that admits calls. -/
theorem spliced (hX : Reads .additive X x []) (hV : Below 4 V) {R : Rule} {s r : List (Symbol α)} {t : Term α}
    (h : Reads R s t r) :
    ∀ U, s = U ++ (powerSymbols X ++ V) → admitsCall U = true → Spliced X V x R U t r := by
  induction h with
  | sequenceOne _ ih => exact fun U hs hU => (ih U hs hU).lift .sequenceOne nofun nofun
  | additiveOne _ ih => exact fun U hs hU => (ih U hs hU).lift .additiveOne nofun nofun
  | signedOne _ ih => exact fun U hs hU => (ih U hs hU).lift .signedOne id id
  | powerOne _ ih => exact fun U hs hU => (ih U hs hU).lift .powerOne id id
  | termOne _ ih => exact fun U hs hU => (ih U hs hU).close hX .termOne .termBeside rfl
  | runOne _ ih => exact fun U hs hU => (ih U hs hU).close hX .runOne .runMore rfl
  | sequenceMore ha hb iha ihb =>
    exact fun U => .join [.comma] hX hV (.inr ⟨_, rfl, nofun⟩) .sequenceMore nofun nofun nofun ha hb iha ihb
  | @additiveMore s a y op b m r ha hop hb iha ihb =>
    have hopening : y ≠ .opening := by
      rintro rfl
      cases hop
    have hmul : op ≠ .mul := by
      rintro rfl
      cases y <;> cases hop
    exact fun U => .join [y] hX hV (.inr ⟨y, rfl, hopening⟩) (fun ha hb => .additiveMore ha hop hb)
      (fun h => absurd h hmul) nofun nofun ha hb iha ihb
  | @termMore s a y op b m r ha hop hb iha ihb =>
    have hopening : y ≠ .opening := by
      rintro rfl
      cases hop
    exact fun U => .join [y] hX hV (.inr ⟨y, rfl, hopening⟩) (fun ha hb => .termMore ha hop hb) (fun _ => rfl) nofun
      (fun _ => ⟨.termBeside, fun u U hU => admitsCall_behind_operator hop hU⟩) ha hb iha ihb
  | termBeside ha hb iha ihb =>
    exact fun U => .join [] hX hV (.inl rfl) .termBeside (fun _ => rfl) nofun
      (fun _ => ⟨.termBeside, fun u U hU => ⟨fun _ => rfl, admitsCall_behind_call hU⟩⟩) ha hb iha ihb
  | powerMore ha hb iha ihb =>
    exact fun U => .join [.caret] hX hV (.inr ⟨_, rfl, nofun⟩) .powerMore nofun (fun _ => rfl) nofun ha hb iha ihb
  | runMore ha hb iha ihb =>
    exact fun U => .join [] hX hV (.inl rfl) .runMore (fun _ => rfl) nofun
      (fun _ => ⟨.runMore, fun u U hU => ⟨fun _ => rfl, admitsCall_behind_call hU⟩⟩) ha hb iha ihb
  | exponentOne _ hstop ih => exact fun U hs hU => (ih U hs hU).exponent hstop
  | signedMinus _ ih =>
    exact fun U => .sign rfl 1 .signedMinus (fun hex => ⟨true, hex.negated, fun _ => rfl⟩) (fun _ _ => rfl) ih
  | exponentMinus _ ih =>
    exact fun U => .sign rfl 1 .exponentMinus (fun hex => ⟨true, hex.negated, fun _ => rfl⟩) (fun _ _ => rfl) ih
  | signedPlus _ ih => exact fun U => .sign (f := id) rfl 0 .signedPlus (fun hex => ⟨_, hex, id⟩) (fun _ _ => rfl) ih
  | exponentPlus _ ih =>
    exact fun U => .sign (f := id) rfl 0 .exponentPlus (fun hex => ⟨_, hex, id⟩) (fun _ _ => rfl) ih
  | number v r =>
    intro U hs _
    obtain ⟨U', rfl, rfl⟩ := cons_eq_append_power hs nofun
    exact .ahead rfl (.number v _)
  | name f r =>
    intro U hs _
    obtain ⟨U', rfl, rfl⟩ := cons_eq_append_power hs nofun
    exact .ahead rfl (.name f _)
  | infinity r =>
    intro U hs _
    obtain ⟨U', rfl, rfl⟩ := cons_eq_append_power hs nofun
    exact .ahead rfl (.infinity _)
  | group hitems ih => exact fun U => .group hX hitems ih
  | itemsOne _ ih => exact fun U hs hU => (ih U hs hU).item
  | itemsMore ha hb iha ihb => exact fun U => .joinItems ha hb iha ihb

/-! ## Texts -/

variable {U : List (Symbol α)} {text text' : String} {toks toks' : List (Token α)}

/-- **A call is read wherever the power may stand**, and the trees are exchanged. -/
theorem reads_callSymbols (hX : Reads .additive X x []) (hU : admitsCall U = true) (hV : Below 4 V) {t : Term α}
    (h : Reads .sequence (U ++ (powerSymbols X ++ V)) t []) :
    ∃ k u, Exchanged x k t u ∧ Reads .sequence (U ++ (callSymbols X ++ V)) u [] := by
  cases spliced hX hV h U rfl hU with
  | ahead hr => exact absurd hr (by simp [powerSymbols, parenthesized])
  | passed hex _ h => exact ⟨_, _, hex, h⟩
  | split n hR => cases hR

theorem eq_opening_of_list {s r : List (Symbol α)} {ts : List (Term α)} (h : Reads .atom s (.list () ts) r) :
    ∃ v, s = .opening :: v := by
  cases h with
  | group => exact ⟨_, rfl⟩

/-- **A call whose list is read as its argument stands where calls may stand**, and no exponent follows it. -/
theorem admitsCall_of_calls (hX : Reads .additive X x []) {t : Term α} {r : Term α × Bool}
    (h : Reads .sequence (U ++ (callSymbols X ++ V)) t []) (ht : calls t none = .ok r) :
    admitsCall U = true ∧ V.head? ≠ some .caret := by
  obtain ⟨hU, p, s, v, ts, hW, hp, hs, hv⟩ := called_of_calls (U := U) (W := parenthesized X ++ V) h ht
  constructor
  · refine Bool.of_not_eq_false fun hno => ?_
    obtain ⟨P, S, rfl, hS⟩ := exists_of_not_admitsCall hno hU
    -- the earlier call would have to find its list behind `S`, where the variable of this one stands
    have hearlier : P ++ .name expName :: (S ++ (callSymbols X ++ V)) =
        P ++ .name expName :: S ++ (callSymbols X ++ V) := by
      simp
    rw [← hearlier] at h
    obtain ⟨-, p, s, v, ts, hW, hp, hs, -⟩ := called_of_calls h ht
    obtain ⟨s, rfl⟩ := eq_opening_of_list hs
    rcases List.append_eq_append_iff.mp hW with ⟨c, rfl, hc⟩ | ⟨c, rfl, hc⟩
    · cases c with
      | nil => cases hc
      | cons y c =>
        obtain ⟨rfl, -⟩ := List.cons.inj hc
        exact absurd (hp (.name expName) (by simp)) (by simp)
    · cases c with
      | nil => cases hc
      | cons y c =>
        obtain ⟨rfl, -⟩ := List.cons.inj hc
        exact absurd (hS .opening (by simp)) (by simp [Symbol.isSign, sumOp?])
  · intro hhead
    cases p with
    | nil =>
      rw [List.nil_append] at hW
      subst hW
      obtain ⟨-, rfl⟩ := hs.unique_atom (reads_parenthesized hX V)
      exact hv hhead
    | cons y p =>
      obtain ⟨rfl, -⟩ := List.cons.inj hW
      exact absurd (hp .opening List.mem_cons_self) (by simp)

theorem map_ofText_call (hX : Reads .additive X x []) (hU : admitsCall U = true) (hV : Below 4 V)
    (htoks : tokenize text = .ok toks) (hsymbols : symbols toks = U ++ (powerSymbols X ++ V))
    (htoks' : tokenize text' = .ok toks') (hsymbols' : symbols toks' = U ++ (callSymbols X ++ V)) {e : Expr α}
    (he : Expr.ofText text = .ok e) :
    (Expr.ofText text' : Except ExprError (Expr α)).map (·.tree.term) = .ok e.tree.term := by
  obtain ⟨toks, t, r, htoks₁, hreads, hcalls, hterm⟩ := ofText_eq_ok he
  obtain rfl := Except.ok.inj (htoks₁.symm.trans htoks)
  have hsettled : settled t = .ok e.tree.term := by
    rw [settled, hcalls, hterm]
  rw [hsymbols] at hreads
  obtain ⟨k, u, hex, hreads'⟩ := reads_callSymbols hX hU hV hreads
  rw [← hsymbols'] at hreads'
  rw [map_ofText, readTerm_of_tokenize htoks', ofTokens_eq_ok_iff.mpr hreads']
  exact hex.settled_eq hsettled

end Reading

/-- **A call may stand for a power where calls may stand**: if a text with `(e^(X))` in it is read, so is the text with
`exp(X)` in its place, as an equal expression, if the symbols in front of the place admit calls and no exponent follows.
Elsewhere the text with the call is never read. -/
theorem ofText_call {U X V : List (Symbol Double)} (hX : Derives .additive X) {text text' : String}
    {toks toks' : List (Token Double)} (htoks : tokenize text = .ok toks)
    (hsymbols : symbols toks = U ++ (powerSymbols X ++ V)) (htoks' : tokenize text' = .ok toks')
    (hsymbols' : symbols toks' = U ++ (callSymbols X ++ V)) {e : Expr Double} (he : Expr.ofText text = .ok e) :
    (admitsCall U = true → V.head? ≠ some .caret →
      ∃ e', Expr.ofText text' = .ok e' ∧ e'.tree.term = e.tree.term ∧ e'.same e = true) ∧
      ∀ e' : Expr Double, Expr.ofText text' = .ok e' → admitsCall U = true ∧ V.head? ≠ some .caret := by
  obtain ⟨x, hx⟩ := reads_of_derives_additive hX
  refine ⟨fun hU hV => ?_, fun e' he' => ?_⟩
  · have hbelow : Below 4 V := by
      intro y hy
      cases y with
      | caret => exact absurd hy hV
      | _ => simp [Symbol.strength]
    obtain ⟨e', he', hterm⟩ := map_eq_ok (map_ofText_call hx hU hbelow htoks hsymbols htoks' hsymbols' he)
    exact ⟨e', he', hterm, same_of_term_eq Double.same_self _ _ hterm⟩
  · obtain ⟨toks, t, r, htoks₁, hreads, hcalls, -⟩ := ofText_eq_ok he'
    obtain rfl := Except.ok.inj (htoks₁.symm.trans htoks')
    rw [hsymbols'] at hreads
    exact admitsCall_of_calls hx hreads hcalls

/-! ## Examples -/

section Examples

variable [Scalar α] {cs : List Char} {syms : List (Symbol α)}

theorem lexes_power (h : Lexes cs syms) :
    Lexes ('(' :: 'e' :: '^' :: '(' :: 'x' :: ')' :: ')' :: cs) (powerSymbols [.name "x"] ++ syms) :=
  .sign rfl <| .letter rfl (.cons rfl rfl) <| .sign rfl <| .sign rfl <|
  .letter rfl (.cons rfl rfl) <| .sign rfl <| .sign rfl h

theorem lexes_exp (hcs : Boundary cs) (h : Lexes cs syms) : Lexes ('e' :: 'x' :: 'p' :: cs) (.name expName :: syms) :=
  .word (w := ['x', 'p']) rfl (List.all_eq_true.mp rfl) hcs h

theorem lexes_call (h : Lexes cs syms) :
    Lexes ('e' :: 'x' :: 'p' :: '(' :: 'x' :: ')' :: cs) (callSymbols [.name "x"] ++ syms) :=
  lexes_exp (.cons rfl rfl) <| .sign rfl <|
  .letter rfl (.cons rfl rfl) <| .sign rfl h

theorem reads_x : Reads .additive [.name "x"] (.var () "x" : Term α) [] :=
  .additiveOne <| .termOne <| .signedOne <| .powerOne <| .name "x" []

end Examples

/-- A call behind a product and a sign, and with a factor behind it. -/
theorem ofText_call_between : ∃ (toks toks' : List (Token Double)) (e e' : Expr Double),
    tokenize "a*-(e^(x))b" = .ok toks ∧
    symbols toks = [.name "a", .star, .minus] ++ (powerSymbols [.name "x"] ++ [.name "b"]) ∧
    tokenize "a*-exp(x)b" = .ok toks' ∧
    symbols toks' = [.name "a", .star, .minus] ++ (callSymbols [.name "x"] ++ [.name "b"]) ∧
    Expr.ofText "a*-(e^(x))b" = .ok e ∧ Expr.ofText "a*-exp(x)b" = .ok e' ∧ e'.tree.term = e.tree.term ∧
    e'.same e = true := by
  have hx : Reads .additive [.name "x"] (.var () "x" : Term Double) [] := reads_x
  have hend : Lexes ['b'] [(.name "b" : Symbol Double)] :=
    .letter rfl boundary_nil .nil
  have hpower : Lexes "a*-(e^(x))b".toList ([.name "a", .star, .minus] ++ (powerSymbols [.name "x"] ++ [.name "b"])) :=
    .letter rfl (.cons rfl rfl) <| .sign rfl <| .sign rfl <| lexes_power hend
  have hcall : Lexes "a*-exp(x)b".toList ([.name "a", .star, .minus] ++ (callSymbols [.name "x"] ++ [.name "b"])) :=
    .letter rfl (.cons rfl rfl) <| .sign rfl <| .sign rfl <| lexes_call hend
  have hreads : Reads .sequence ([.name "a", .star, .minus] ++ (powerSymbols [.name "x"] ++ [.name "b"]))
      (.binary () .mul (.binary () .mul (.var () "a") (.negate () (powerGroup (.var () "x")))) (.var () "b")) [] :=
    .sequenceOne <| .additiveOne <| .termBeside
      (.termMore (.termOne <| .signedOne <| .powerOne <| .name _ _) rfl
        (.signedMinus <| .signedOne <| .powerOne <| reads_powerSymbols hx _))
      (.powerOne <| .name "b" [])
  have hnoCall : (Tree.binary () .mul (.binary () .mul (.var () "a") (.negate () (powerGroup (.var () "x"))))
      (.var () "b") : Term Double).Everywhere IsNoCall := by
    simp [powerGroup, IsNoCall, name?, expName, baseName]
  obtain ⟨toks, htoks, hsymbols⟩ := hpower 0
  obtain ⟨toks', htoks', hsymbols'⟩ := hcall 0
  obtain ⟨e, he, -⟩ := ofText_of_reads "a*-(e^(x))b" hpower hreads (calls_of_isNoCall hnoCall none)
  have hderives : Derives .additive [(.name "x" : Symbol Double)] :=
    .additiveOne <| .termOne <| .signedOne <| .powerOne <| .name "x"
  obtain ⟨e', he', hterm, hsame⟩ := (ofText_call hderives htoks hsymbols htoks' hsymbols' he).1 (by decide) (by simp)
  exact ⟨toks, toks', e, e', htoks, hsymbols, htoks', hsymbols', he, he', hterm, hsame⟩

/-- A text with the power in it is read, and with the call in its place it ends in an error. -/
def CallFails (U X V : List (Symbol Double)) (text text' : String) : Prop :=
  (∃ toks, tokenize text = .ok toks ∧ symbols toks = U ++ (powerSymbols X ++ V)) ∧
    (∃ toks, tokenize text' = .ok toks ∧ symbols toks = U ++ (callSymbols X ++ V)) ∧
    (∃ e : Expr Double, Expr.ofText text = .ok e) ∧
    ∃ f, (Expr.ofText text' : Except ExprError (Expr Double)) = .error (.malformedCall f)

theorem callFails_of_reads {U V : List (Symbol Double)} {text text' : String} {t u : Term Double} {f : CallFault}
    (hpower : Lexes text.toList (U ++ (powerSymbols [.name "x"] ++ V)))
    (hcall : Lexes text'.toList (U ++ (callSymbols [.name "x"] ++ V)))
    (ht : Reads .sequence (U ++ (powerSymbols [.name "x"] ++ V)) t []) (hsettles : ∃ r, calls t none = .ok r)
    (hu : Reads .sequence (U ++ (callSymbols [.name "x"] ++ V)) u []) (hfails : calls u none = .error f) :
    CallFails U [.name "x"] V text text' := by
  obtain ⟨r, hr⟩ := hsettles
  obtain ⟨e, he, -⟩ := ofText_of_reads text hpower ht hr
  exact ⟨hpower 0, hcall 0, ⟨e, he⟩, f, ofText_error_of_reads text' hcall hu hfails⟩

section

variable {y : Symbol Double} {op : BinaryOp} {text text' : String}

/-- The two readings behind a name and an operator between factors. -/
theorem reads_behind_operator (hop : factorOp? y = some op) (f : String) :
    Reads .sequence ([.name f, y] ++ (powerSymbols [.name "x"] ++ []))
        (.binary () op (.var () f) (powerGroup (.var () "x"))) [] ∧
      Reads .sequence ([.name f, y] ++ (callSymbols [.name "x"] ++ []))
        (.binary () .mul (.binary () op (.var () f) (.var () expName)) (.list () [.var () "x"])) [] := by
  have hname : ∀ (g : String) (r : List (Symbol Double)), Reads .signed (.name g :: r) (.var () g) r := fun g r =>
    .signedOne <| .powerOne <| .name g r
  exact ⟨.sequenceOne <| .additiveOne <| .termMore (.termOne <| hname _ _) hop
      (.signedOne <| .powerOne <| reads_powerSymbols reads_x []),
    .sequenceOne <| .additiveOne <| .termBeside (.termMore (.termOne <| hname _ _) hop (hname _ _))
      (.powerOne <| reads_parenthesized reads_x [])⟩

/-- A quotient or a remainder takes in the variable of the call alone. -/
theorem callFails_behind_quotient (hop : factorOp? y = some op) (hmul : op ≠ .mul)
    (hpower : Lexes text.toList ([.name "a", y] ++ (powerSymbols [.name "x"] ++ [])))
    (hcall : Lexes text'.toList ([.name "a", y] ++ (callSymbols [.name "x"] ++ []))) :
    CallFails [.name "a", y] [.name "x"] [] text text' := by
  obtain ⟨hreads, hreads'⟩ := reads_behind_operator hop "a"
  have hnoCall : (Tree.binary () op (.var () "a") (powerGroup (.var () "x")) : Term Double).Everywhere IsNoCall := by
    simp [powerGroup, IsNoCall, name?, expName, baseName]
  have hfails : calls (Tree.binary () .mul (.binary () op (.var () "a") (.var () expName))
      (.list () [.var () "x"]) : Term Double) none = .error .notFollowed := by
    cases op with
    | mul => exact absurd rfl hmul
    | _ => rfl
  exact callFails_of_reads hpower hcall hreads ⟨_, calls_of_isNoCall hnoCall none⟩ hreads' hfails

end

/-- **Where calls fail**: behind a quotient or a remainder, in front of an exponent, and as the argument of a call. -/
theorem calls_fail :
    CallFails [.name "a", .slash] [.name "x"] [] "a/(e^(x))" "a/exp(x)" ∧
    CallFails [.name "a", .percent] [.name "x"] [] "a%(e^(x))" "a%exp(x)" ∧
    CallFails [] [.name "x"] [.caret, .name "a"] "(e^(x))^a" "exp(x)^a" ∧
    CallFails [.name "exp"] [.name "x"] [] "exp(e^(x))" "exp exp(x)" ∧
    CallFails [.name "exp", .star] [.name "x"] [] "exp*(e^(x))" "exp*exp(x)" := by
  have hx : Reads .additive [.name "x"] (.var () "x" : Term Double) [] := reads_x
  have hname : ∀ (f : String) (r : List (Symbol Double)), Reads .power (.name f :: r) (.var () f) r := fun f r =>
    .powerOne (.name f r)
  have hexponent : Reads .exponent [.name "a"] (.var () "a" : Term Double) [] :=
    .exponentOne (.runOne (hname _ _)) nofun
  have hnoCall : (Tree.binary () .pow (powerGroup (.var () "x")) (.var () "a") : Term Double).Everywhere IsNoCall := by
    simp [powerGroup, IsNoCall, name?, expName, baseName]
  refine ⟨?_, ?_, ?_, ?_, ?_⟩
  · exact callFails_behind_quotient rfl (by decide)
      (.letter rfl (.cons rfl rfl) <| .sign rfl <| lexes_power .nil)
      (.letter rfl (.cons rfl rfl) <| .sign rfl <| lexes_call .nil)
  · exact callFails_behind_quotient rfl (by decide)
      (.letter rfl (.cons rfl rfl) <| .sign rfl <| lexes_power .nil)
      (.letter rfl (.cons rfl rfl) <| .sign rfl <| lexes_call .nil)
  · exact callFails_of_reads (lexes_power <| .sign rfl <| .letter rfl boundary_nil .nil)
      (lexes_call <| .sign rfl <| .letter rfl boundary_nil .nil)
      (.sequenceOne <| .additiveOne <| .termOne <| .signedOne <| .powerMore (reads_powerSymbols hx _) hexponent)
      ⟨_, calls_of_isNoCall hnoCall none⟩
      (.sequenceOne <| .additiveOne <| .termBeside (.termOne <| .signedOne <| hname _ _)
        (.powerMore (reads_parenthesized hx _) hexponent))
      rfl
  · exact callFails_of_reads
      (lexes_exp (.cons rfl rfl) <| lexes_power .nil)
      (lexes_exp (.cons rfl rfl) <| .blank rfl <| lexes_call .nil)
      (.sequenceOne <| .additiveOne <| .termBeside (.termOne <| .signedOne <| hname _ _)
        (.powerOne <| reads_powerSymbols hx []))
      ⟨_, rfl⟩
      (.sequenceOne <| .additiveOne <| .termBeside (.termBeside (.termOne <| .signedOne <| hname _ _) (hname _ _))
        (.powerOne <| reads_parenthesized hx []))
      rfl
  · obtain ⟨hreads, hreads'⟩ := reads_behind_operator (y := .star) rfl "exp"
    exact callFails_of_reads
      (lexes_exp (.cons rfl rfl) <| .sign rfl <| lexes_power .nil)
      (lexes_exp (.cons rfl rfl) <| .sign rfl <| lexes_call .nil)
      hreads ⟨_, rfl⟩ hreads' rfl

end SignalFlow.Reader
