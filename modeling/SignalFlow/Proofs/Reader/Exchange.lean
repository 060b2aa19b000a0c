import SignalFlow.Proofs.Reader.Bare

/-!
# Calls in place of powers

The group `(e^(x))` is read as one factor, the call `exp(x)` as two: a variable and a list. So the trees of two texts
that differ in this only differ by more than one subtree: the signs in front of the group stand in front of the
variable, and a product in front of the group takes in the variable before the list. `Exchanged` says how they differ.

Where the calls of the first tree can be expanded, so can those of the second, and once the groups are dissolved the
results are equal (`Exchanged.settled_eq`). A product that ends in a call would take the group as the argument of this
call; it must not stand in front (`endsInCall`).
-/

namespace SignalFlow.Reader

open SignalFlow.Tree

variable {α : Type}

/-! ## Agreement -/

/-- **The second outcome is a success if the first is**, with the same tree up to groups and the same use of the factor
that follows. -/
def Agrees (x y : Except CallFault (Term α × Bool)) : Prop :=
  ∀ t k, x = .ok (t, k) → ∃ u, y = .ok (u, k) ∧ ungrouped t = ungrouped u

/-- The second place offers an argument if the first does, the same up to groups. -/
def Covers (next next' : Option (Except CallFault (Term α))) : Prop :=
  ∀ t, next = some (.ok t) → ∃ u, next' = some (.ok u) ∧ ungrouped t = ungrouped u

theorem Agrees.refl (x : Except CallFault (Term α × Bool)) : Agrees x x := fun t _ h => ⟨t, h, rfl⟩

section Covers

variable {next next' : Option (Except CallFault (Term α))}

theorem Covers.refl (next : Option (Except CallFault (Term α))) : Covers next next := fun t h => ⟨t, h, rfl⟩

/-- What a last factor gets in the right operand of a product. -/
theorem Covers.getD (h : Covers next next') (f : CallFault) :
    Covers (some (next.getD (.error f))) (some (next'.getD (.error f))) := by
  intro t ht
  match next, ht with
  | some (.ok t), rfl =>
    obtain ⟨u, rfl, htu⟩ := h t rfl
    exact ⟨u, rfl, htu⟩

theorem Covers.underSign {t u : Term α} (h : Covers next next') (hop : t.op? = u.op?) :
    Covers (underSign t next) (underSign u next') := by
  cases t with
  | binary => exact nofun
  | _ => cases u <;> first | exact h | cases hop

end Covers

section Agreement

variable {t t' a a' b b' : Term α} {next next' : Option (Except CallFault (Term α))}

theorem agrees_negate (h : Agrees (calls t (underSign t next)) (calls t' (underSign t' next'))) :
    Agrees (calls (.negate () t) next) (calls (.negate () t') next') := by
  intro w k hw
  obtain ⟨⟨v, k'⟩, hv, hpair⟩ := map_eq_ok hw
  cases hpair
  obtain ⟨v', hv', hsame⟩ := h v k' hv
  refine ⟨.negate () v', ?_, congrArg (Tree.negate ()) hsame⟩
  rw [calls, hv']
  rfl

theorem agrees_product (hleft : Agrees (calls a (some (argumentOf b))) (calls a' (some (argumentOf b'))))
    (hright : Agrees (calls b (some (next.getD (.error .missingArguments))))
      (calls b' (some (next'.getD (.error .missingArguments))))) :
    Agrees (calls (.binary () .mul a b) next) (calls (.binary () .mul a' b') next') := by
  intro w k hw
  obtain ⟨⟨v, took⟩, hv, hw⟩ := bind_eq_ok (calls_product.symm.trans hw)
  obtain ⟨v', hv', hsame⟩ := hleft v took hv
  rw [calls_product, hv']
  cases took with
  | true =>
    cases hw
    exact ⟨v', rfl, hsame⟩
  | false =>
    obtain ⟨⟨z, k'⟩, hz, hw⟩ := bind_eq_ok hw
    cases hw
    obtain ⟨z', hz', hsame'⟩ := hright z k' hz
    refine ⟨.binary () .mul v' z', ?_, congrArg₂ (Tree.binary () .mul) hsame hsame'⟩
    show (calls b' _ >>= _) = _
    rw [hz']
    rfl

theorem agrees_binary {op : BinaryOp} (hop : op ≠ .mul) (hleft : Agrees (calls a none) (calls a' none))
    (hright : Agrees (calls b none) (calls b' none)) :
    Agrees (calls (.binary () op a b) next) (calls (.binary () op a' b') next') := by
  intro w k hw
  obtain ⟨⟨v, k₁⟩, hv, hw⟩ := bind_eq_ok ((calls_binary hop).symm.trans hw)
  obtain ⟨⟨z, k₂⟩, hz, hw⟩ := bind_eq_ok hw
  cases hw
  obtain ⟨v', hv', hsame⟩ := hleft v k₁ hv
  obtain ⟨z', hz', hsame'⟩ := hright z k₂ hz
  refine ⟨.binary () op v' z', ?_, congrArg₂ (Tree.binary () op) hsame hsame'⟩
  rw [calls_binary hop, hv']
  show (calls b' none >>= _) = _
  rw [hz']
  rfl

/-- Lists of which one item differs. -/
theorem agrees_list {before after : List (Term α)} (h : Agrees (calls t none) (calls t' none)) :
    Agrees (calls (.list () (before ++ t :: after)) next) (calls (.list () (before ++ t' :: after)) next') := by
  have hitems : ∀ us, callsAll (before ++ t :: after) = .ok us →
      ∃ us', callsAll (before ++ t' :: after) = .ok us' ∧ us.map ungrouped = us'.map ungrouped := by
    induction before with
    | nil =>
      intro us hus
      obtain ⟨⟨v, k⟩, hv, hus⟩ := bind_eq_ok hus
      obtain ⟨vs, hvs, hus⟩ := bind_eq_ok hus
      cases hus
      obtain ⟨v', hv', hsame⟩ := h v k hv
      refine ⟨v' :: vs, ?_, congrArg (· :: vs.map ungrouped) hsame⟩
      show (calls t' none >>= _) = _
      rw [hv']
      show (callsAll after >>= _) = _
      rw [hvs]
      rfl
    | cons s before ih =>
      intro us hus
      obtain ⟨⟨v, k⟩, hv, hus⟩ := bind_eq_ok hus
      obtain ⟨vs, hvs, hus⟩ := bind_eq_ok hus
      cases hus
      obtain ⟨vs', hvs', hsame⟩ := ih vs hvs
      refine ⟨v :: vs', ?_, congrArg (ungrouped v :: ·) hsame⟩
      show (calls s none >>= _) = _
      rw [hv]
      show (callsAll (before ++ t' :: after) >>= _) = _
      rw [hvs']
      rfl
  intro w k hw
  obtain ⟨us, hus, hpair⟩ := map_eq_ok hw
  cases hpair
  obtain ⟨us', hus', hsame⟩ := hitems us hus
  refine ⟨.list () us', ?_, ?_⟩
  · rw [calls, hus']
    rfl
  · rw [ungrouped, ungrouped, ungroupedAll_eq, ungroupedAll_eq, hsame]

end Agreement

/-- **A place that offers more lets as many calls be expanded.** -/
theorem agrees_of_covers (t : Term α) {next next' : Option (Except CallFault (Term α))} (h : Covers next next') :
    Agrees (calls t next) (calls t next') := by
  induction t using nodeInduction generalizing next next' with
  | literal l v | infinity l | list l items _ => exact Agrees.refl _
  | var l x =>
    by_cases hx : x = expName
    · subst hx
      intro w k hw
      match next with
      | none =>
        rw [calls_call_alone] at hw
        cases hw
      | some argument =>
        obtain ⟨t, rfl, hpair⟩ := map_eq_ok ((calls_call argument).symm.trans hw)
        cases hpair
        obtain ⟨u, rfl, hsame⟩ := h t rfl
        exact ⟨_, calls_call (.ok u), congrArg (Tree.binary () .pow (.var () baseName)) hsame⟩
    · rw [calls_var hx, calls_var hx]
      exact Agrees.refl _
  | negate l t ih => exact agrees_negate (ih (h.underSign rfl))
  | binary l op a b iha ihb =>
    by_cases hop : op = .mul
    · subst hop
      exact agrees_product (Agrees.refl _) (ihb (h.getD .missingArguments))
    · exact agrees_binary hop (Agrees.refl _) (Agrees.refl _)

/-! ## Products that end in a call -/

/-- Whether the last factor of a product is a call, perhaps with signs in front. -/
def endsInCall : Term α → Bool
  | .var _ x => x == expName
  | .negate _ t => t.op?.isNone && endsInCall t
  | .binary _ op _ b => op == .mul && endsInCall b
  | _ => false

theorem eq_list_of_argumentOf {t u : Term α} (h : argumentOf t = .ok u) : ∃ y, t = .list () [y] := by
  match t, h with
  | .list () [y], _ => exact ⟨y, rfl⟩

/-- **A call at the end of a product needs an argument behind it**, and only an argument that is there is used up. -/
theorem next_of_calls {t u : Term α} {k : Bool} {next : Option (Except CallFault (Term α))}
    (h : calls t next = .ok (u, k)) (hend : k = true ∨ endsInCall t = true) : ∃ v, next = some (.ok v) := by
  induction t using nodeInduction generalizing u k next with
  | literal l v | infinity l =>
    cases h
    rcases hend with hk | ht <;> contradiction
  | var l x =>
    by_cases hx : x = expName
    · subst hx
      cases next with
      | none =>
        rw [calls_call_alone] at h
        cases h
      | some argument =>
        obtain ⟨v, rfl, -⟩ := map_eq_ok ((calls_call argument).symm.trans h)
        exact ⟨v, rfl⟩
    · rw [calls_var hx] at h
      cases h
      exact absurd (beq_iff_eq.mp (hend.resolve_left Bool.false_ne_true)) hx
  | negate l t ih =>
    obtain ⟨⟨w, k⟩, hw, hpair⟩ := map_eq_ok h
    cases hpair
    obtain ⟨v, hv⟩ := ih hw (hend.imp_right fun ht => (Bool.and_eq_true_iff.mp ht).2)
    cases t with
    | binary => cases hv
    | _ => exact ⟨v, hv⟩
  | binary l op a b iha ihb =>
    by_cases hop : op = .mul
    · subst hop
      obtain ⟨⟨w, took⟩, hw, h⟩ := bind_eq_ok (calls_product.symm.trans h)
      cases took with
      | true =>
        -- the right operand is the list of the left one, not a call
        cases h
        obtain ⟨v, hv⟩ := iha hw (.inl rfl)
        obtain ⟨y, rfl⟩ := eq_list_of_argumentOf (Option.some.inj hv)
        rcases hend with hk | ht <;> contradiction
      | false =>
        obtain ⟨⟨z, k⟩, hz, h⟩ := bind_eq_ok h
        cases h
        obtain ⟨v, hv⟩ := ihb hz hend
        cases next with
        | none => cases hv
        | some argument => exact ⟨v, hv⟩
    · obtain ⟨⟨w, k₁⟩, -, h⟩ := bind_eq_ok ((calls_binary hop).symm.trans h)
      obtain ⟨⟨z, k₂⟩, -, h⟩ := bind_eq_ok h
      cases h
      rcases hend with hk | ht
      · cases hk
      · exact absurd (beq_iff_eq.mp (Bool.and_eq_true_iff.mp ht).1) hop
  | list l items ih =>
    obtain ⟨us, -, hpair⟩ := map_eq_ok h
    cases hpair
    rcases hend with hk | ht <;> contradiction

/-- **What follows a product matters to its last call only.** -/
theorem calls_of_not_endsInCall {t : Term α} (h : endsInCall t = false)
    (next next' : Option (Except CallFault (Term α))) :
    calls t next = calls t next' := by
  induction t using nodeInduction generalizing next next' with
  | literal l v | infinity l | list l items _ => rfl
  | var l x =>
    have hx : x ≠ expName := fun hx => absurd (beq_iff_eq.mpr hx) (Bool.eq_false_iff.mp h)
    rw [calls_var hx, calls_var hx]
  | negate l t ih =>
    cases t with
    | binary => rfl
    | _ => exact congrArg (Except.map _) (ih h next next')
  | binary l op a b _ ihb =>
    by_cases hop : op = .mul
    · subst hop
      refine calls_product.trans (Eq.trans ?_ calls_product.symm)
      rw [ihb h (some (next.getD _)) (some (next'.getD (.error .missingArguments)))]
    · exact (calls_binary hop).trans (calls_binary hop).symm

theorem took_of_not_endsInCall {t u : Term α} {k : Bool} {next : Option (Except CallFault (Term α))}
    (h : endsInCall t = false) (hu : calls t next = .ok (u, k)) : k = false := by
  rw [calls_of_not_endsInCall h next none] at hu
  cases k with
  | false => rfl
  | true => exact absurd (next_of_calls hu (.inl rfl)) nofun

/-! ## The exchange -/

section Exchange

variable [Scalar α]

theorem literal?_negatedTimes {t : Term α} (h : t.literal? = none) (n : Nat) : (negatedTimes t n).literal? = none := by
  induction n with
  | zero => exact h
  | succ n ih =>
    rw [negatedTimes, negated_eq_negate ih]
    rfl

/-- Signs in front of what is no literal. -/
theorem negatedTimes_succ {t : Term α} (h : t.literal? = none) (n : Nat) :
    negatedTimes t (n + 1) = .negate () (negatedTimes t n) :=
  negated_eq_negate (literal?_negatedTimes h n)

theorem op?_negatedTimes {t : Term α} (h : t.literal? = none) (hop : t.op? = none) (n : Nat) :
    (negatedTimes t n).op? = none := by
  cases n with
  | zero => exact hop
  | succ n =>
    rw [negatedTimes_succ h]
    rfl

omit [Scalar α] in
theorem underSign_eq {t : Term α} (h : t.op? = none) (next : Option (Except CallFault (Term α))) :
    underSign t next = next := by
  cases t with
  | binary => cases h
  | _ => rfl

/-- What is read as `(e^(x))`. -/
def powerGroup (x : Term α) : Term α := .list () [.binary () .pow (.var () baseName) (.list () [x])]

/-- A call with signs in front, and what its argument list offers. -/
theorem calls_signed_call (n : Nat) (argument : Except CallFault (Term α)) :
    calls (negatedTimes (.var () expName) n) (some argument) =
      argument.map fun t => (negatedTimes (.binary () .pow (.var () baseName) t) n, true) := by
  induction n with
  | zero => exact calls_call argument
  | succ n ih =>
    rw [negatedTimes_succ rfl, calls, underSign_eq (op?_negatedTimes rfl rfl n), ih]
    cases argument with
    | error f => rfl
    | ok t => exact congrArg (fun t => Except.ok (t, true)) (negatedTimes_succ rfl n).symm

/-- A power in a group with signs in front gives what its exponent gives. -/
theorem calls_signed_group (n : Nat) (x : Term α) (next : Option (Except CallFault (Term α))) :
    calls (negatedTimes (powerGroup x) n) next =
      (calls x none).map fun r => (negatedTimes (powerGroup r.1) n, false) := by
  induction n with
  | zero =>
    have hpow : BinaryOp.pow ≠ .mul := nofun
    show (callsAll [_]).map _ = _
    rw [callsAll, calls_binary hpow, calls_var (by decide), calls, callsAll, callsAll]
    cases calls x none <;> rfl
  | succ n ih =>
    rw [negatedTimes_succ rfl, calls, underSign_eq (op?_negatedTimes rfl rfl n), ih]
    cases calls x none with
    | error f => rfl
    | ok r => exact congrArg (fun t => Except.ok (t, false)) (negatedTimes_succ rfl n).symm

/-- Once groups are dissolved, the power in a group is the power. -/
theorem ungrouped_signed_group (n : Nat) (x : Term α) : ungrouped (negatedTimes (powerGroup x) n) =
    ungrouped (negatedTimes (.binary () .pow (.var () baseName) x) n) := by
  induction n with
  | zero => rfl
  | succ n ih =>
    rw [negatedTimes_succ rfl, negatedTimes_succ rfl]
    exact congrArg (Tree.negate ()) ih

/-- **How two trees differ that are read with `(e^(x))` and with `exp(x)` in its place.** The flag says whether the root
is the same operator, sign or list in both. -/
inductive Exchanged (x : Term α) : Bool → Term α → Term α → Prop
  /-- The group is the first factor. -/
  | first (n : Nat) : Exchanged x false (negatedTimes (powerGroup x) n)
      (.binary () .mul (negatedTimes (.var () expName) n) (.list () [x]))
  /-- The group is a later factor. What stands in front does not end in a call. -/
  | next {a : Term α} (n : Nat) : endsInCall a = false →
      Exchanged x true (.binary () .mul a (negatedTimes (powerGroup x) n))
        (.binary () .mul (.binary () .mul a (negatedTimes (.var () expName) n)) (.list () [x]))
  | negate {k : Bool} {t u : Term α} : Exchanged x k t u → Exchanged x true (.negate () t) (.negate () u)
  | left {k : Bool} {a a' : Term α} (op : BinaryOp) (b : Term α) : Exchanged x k a a' →
      Exchanged x true (.binary () op a b) (.binary () op a' b)
  | right {k : Bool} {b b' : Term α} (op : BinaryOp) (a : Term α) : Exchanged x k b b' → (op = .mul → k = true) →
      Exchanged x true (.binary () op a b) (.binary () op a b')
  | item {k : Bool} {t u : Term α} (before after : List (Term α)) : Exchanged x k t u →
      Exchanged x true (.list () (before ++ t :: after)) (.list () (before ++ u :: after))

namespace Exchanged

variable {x t u : Term α} {k : Bool}

theorem op?_eq (h : Exchanged x true t u) : t.op? = u.op? := by
  cases h <;> rfl

theorem literal?_eq_none (h : Exchanged x k t u) : t.literal? = none ∧ u.literal? = none := by
  cases h with
  | first n => exact ⟨literal?_negatedTimes rfl n, rfl⟩
  | _ => exact ⟨rfl, rfl⟩

/-- A sign in front of both trees. -/
theorem negated (h : Exchanged x k t u) : Exchanged x true (Reader.negated t) (Reader.negated u) := by
  rw [negated_eq_negate h.literal?_eq_none.1, negated_eq_negate h.literal?_eq_none.2]
  exact h.negate

/-- The root of a list is that of a list with one item exchanged, also if there are more items. -/
theorem append_items {ts : List (Term α)} (h : Exchanged x true (.list () ts) u) :
    ∃ us, u = .list () us ∧ ∀ more, Exchanged x true (.list () (ts ++ more)) (.list () (us ++ more)) := by
  cases h with
  | item before after h =>
    refine ⟨_, rfl, fun more => ?_⟩
    rw [List.append_assoc, List.append_assoc]
    exact h.item before (after ++ more)

/-- The call as the first factor gives the power in the group. -/
theorem agrees_first (x : Term α) (n : Nat) (next next' : Option (Except CallFault (Term α))) :
    Agrees (calls (negatedTimes (powerGroup x) n) next)
      (calls (.binary () .mul (negatedTimes (.var () expName) n) (.list () [x])) next') := by
  intro w k hw
  rw [calls_signed_group] at hw
  obtain ⟨⟨v, k'⟩, hv, hpair⟩ := map_eq_ok hw
  cases hpair
  refine ⟨negatedTimes (.binary () .pow (.var () baseName) v) n, ?_, ungrouped_signed_group n v⟩
  rw [calls_product, argumentOf, hv]
  show (calls (negatedTimes (.var () expName) n) (some (.ok v)) >>= _) = _
  rw [calls_signed_call]
  rfl

/-- The call as a later factor gives the power in the group. -/
theorem agrees_next {a : Term α} (ha : endsInCall a = false) (n : Nat)
    (next next' : Option (Except CallFault (Term α))) :
    Agrees (calls (.binary () .mul a (negatedTimes (powerGroup x) n)) next)
      (calls (.binary () .mul (.binary () .mul a (negatedTimes (.var () expName) n)) (.list () [x])) next') := by
  intro w k hw
  obtain ⟨⟨v, took⟩, hv, hw⟩ := bind_eq_ok (calls_product.symm.trans hw)
  obtain rfl := took_of_not_endsInCall ha hv
  obtain ⟨⟨z, k'⟩, hz, hw⟩ := bind_eq_ok hw
  cases hw
  rw [calls_signed_group] at hz
  obtain ⟨⟨y, k''⟩, hy, hpair⟩ := map_eq_ok hz
  cases hpair
  -- the factors in front are expanded as before, then the call uses up the list
  have hfront : calls (.binary () .mul a (negatedTimes (.var () expName) n)) (some (argumentOf (.list () [x]))) =
      .ok (.binary () .mul v (negatedTimes (.binary () .pow (.var () baseName) y) n), true) := by
    rw [calls_product, calls_of_not_endsInCall ha _ (some (argumentOf (negatedTimes (powerGroup x) n))), hv,
      argumentOf, hy]
    show (calls (negatedTimes (.var () expName) n) (some (.ok y)) >>= _) = _
    rw [calls_signed_call]
    rfl
  refine ⟨.binary () .mul v (negatedTimes (.binary () .pow (.var () baseName) y) n), ?_, ?_⟩
  · rw [calls_product, hfront]
    rfl
  · exact congrArg (Tree.binary () .mul (ungrouped v)) (ungrouped_signed_group n y)

/-- **The calls of the second tree can be expanded where those of the first can**, with the same result up to groups. A
tree with the same root also gives the same argument to a call in front. -/
theorem agrees_and_covers (h : Exchanged x k t u) :
    (∀ next next', (k = true → Covers next next') → Agrees (calls t next) (calls u next')) ∧
      (k = true → Covers (some (argumentOf t)) (some (argumentOf u))) := by
  induction h with
  | first n => exact ⟨fun next next' _ => agrees_first x n next next', nofun⟩
  | next n ha => exact ⟨fun next next' _ => agrees_next ha n next next', fun _ => nofun⟩
  | @negate k t u h ih =>
    refine ⟨fun next next' hnext => agrees_negate (ih.1 _ _ fun hk => ?_), fun _ => nofun⟩
    subst hk
    exact (hnext rfl).underSign h.op?_eq
  | left op b h ih =>
    refine ⟨fun next next' hnext => ?_, fun _ => nofun⟩
    by_cases hop : op = .mul
    · subst hop
      exact agrees_product (ih.1 _ _ fun _ => Covers.refl _) (agrees_of_covers b ((hnext rfl).getD _))
    · exact agrees_binary hop (ih.1 _ _ fun _ => Covers.refl _) (Agrees.refl _)
  | right op a h hk ih =>
    refine ⟨fun next next' hnext => ?_, fun _ => nofun⟩
    by_cases hop : op = .mul
    · subst hop
      exact agrees_product (agrees_of_covers a (ih.2 (hk rfl))) (ih.1 _ _ fun _ => (hnext rfl).getD _)
    · exact agrees_binary hop (Agrees.refl _) (ih.1 _ _ fun _ => Covers.refl _)
  | item before after h ih =>
    have hitem := ih.1 none none fun _ => Covers.refl _
    refine ⟨fun next next' _ => agrees_list hitem, fun _ v hv => ?_⟩
    match before, after with
    | [], [] =>
      obtain ⟨⟨w, k'⟩, hw, rfl⟩ := map_eq_ok (Option.some.inj hv)
      obtain ⟨w', hw', hsame⟩ := hitem w k' hw
      refine ⟨w', ?_, hsame⟩
      show some ((calls _ none).map _) = _
      rw [hw']
      rfl
    | [], _ :: _ | [_], _ | _ :: _ :: _, _ => cases Option.some.inj hv

/-- **What two exchanged trees settle to is equal**, if the first settles. -/
theorem settled_eq (h : Exchanged x k t u) {v : Term α} (hv : settled t = .ok v) : settled u = .ok v := by
  rw [settled] at hv
  cases hcalls : calls t none with
  | error f =>
    rw [hcalls] at hv
    cases hv
  | ok r =>
    rw [hcalls] at hv
    cases hv
    obtain ⟨w, hw, hsame⟩ := h.agrees_and_covers.1 none none (fun _ => Covers.refl none) r.1 r.2 hcalls
    rw [settled, hw, hsame]

end Exchanged

end Exchange

end SignalFlow.Reader
