import OnDemand.Toml.Reader

/-!
# What a reader leaves

Every reader leaves an end of the text that it got, so whatever is read stands somewhere in the
text. A reader is put together from others, and so is what is known of the text that it leaves.
-/

namespace OnDemand.Toml

variable {α β : Type} {p : α → List Char} {q : β → List Char} {c : Char} {cs rest : List Char}

/-- What is left after something was read, where something was, is an end of a text. -/
def Leaves (p : α → List Char) (cs : List Char) (o : Option α) : Prop :=
  ∀ a ∈ o, p a <:+ cs

namespace Leaves

theorem none : Leaves p cs none :=
  fun _ h => by cases h

theorem some {a : α} (h : p a <:+ cs) : Leaves p cs (some a) :=
  fun _ hb => Option.some.inj hb ▸ h

theorem trans {o : Option α} (h : Leaves p rest o) (hcs : rest <:+ cs) : Leaves p cs o :=
  fun a ha => (h a ha).trans hcs

theorem cons {o : Option α} (h : Leaves p cs o) : Leaves p (c :: cs) o :=
  h.trans (List.suffix_cons c cs)

theorem bind {o : Option α} {f : α → Option β} (h : Leaves p cs o)
    (hf : ∀ a, Leaves q (p a) (f a)) : Leaves q cs (o.bind f) := by
  rintro b hb
  obtain ⟨a, ha, hb⟩ := Option.bind_eq_some_iff.mp hb
  exact (hf a b hb).trans (h a ha)

theorem map {o : Option α} {f : α → β} (h : Leaves p cs o) (hf : ∀ a, q (f a) = p a) :
    Leaves q cs (o.map f) := by
  rintro b hb
  obtain ⟨a, ha, rfl⟩ := Option.map_eq_some_iff.mp hb
  rw [hf]
  exact h a ha

theorem ite {o o' : Option α} {P : Prop} [Decidable P] (h : Leaves p cs o) (h' : Leaves p cs o') :
    Leaves p cs (if P then o else o') := by
  split
  · exact h
  · exact h'

theorem getD {o : Option (List Char)} (h : Leaves id cs o) (hrest : rest <:+ cs) :
    o.getD rest <:+ cs := by
  cases o with
  | none => exact hrest
  | some r => exact h r rfl

end Leaves

/-! ## Layout -/

theorem skipSpace_suffix (cs : List Char) : skipSpace cs <:+ cs :=
  List.dropWhile_suffix _

theorem afterNewline?_leaves (cs : List Char) : Leaves id cs (afterNewline? cs) := by
  fun_cases afterNewline? cs with
  | case1 cs => exact .cons (.some (List.suffix_refl _))
  | case2 cs => exact .cons (.cons (.some (List.suffix_refl _)))
  | case3 => exact .none

theorem afterLine?_leaves (cs : List Char) : Leaves id cs (afterLine? cs) := by
  fun_cases afterLine? cs with
  | case1 => exact .some List.nil_suffix
  | case2 line =>
    have hline : line <:+ cs := by
      unfold line
      split
      · rename_i ds hds
        have hds : '#' :: ds <:+ cs := hds ▸ skipSpace_suffix cs
        exact (List.dropWhile_suffix _).trans ((List.suffix_cons _ _).trans hds)
      · exact skipSpace_suffix cs
    exact (afterNewline?_leaves line).trans hline

theorem skipLayout_suffix (cs : List Char) : skipLayout cs <:+ cs := by
  fun_induction skipLayout cs with
  | case1 => exact List.suffix_refl _
  | case2 cs ih => exact ih.trans (List.suffix_cons _ _)
  | case3 cs ih => exact ih.trans (List.suffix_cons _ _)
  | case4 cs ih => exact ih.trans (List.suffix_cons _ _)
  | case5 cs ih => exact ih.trans ((List.suffix_cons _ _).trans (List.suffix_cons _ _))
  | case6 cs _ ih => exact ih.trans ((List.dropWhile_suffix _).trans (List.suffix_cons _ _))
  | case7 => exact List.suffix_refl _

/-! ## Strings -/

theorem skipBlankLines_suffix (cs : List Char) : skipBlankLines cs <:+ cs := by
  fun_induction skipBlankLines cs with
  | case1 => exact List.suffix_refl _
  | case2 cs ih => exact ih.trans (List.suffix_cons _ _)
  | case3 cs ih => exact ih.trans (List.suffix_cons _ _)
  | case4 cs ih => exact ih.trans (List.suffix_cons _ _)
  | case5 cs ih => exact ih.trans ((List.suffix_cons _ _).trans (List.suffix_cons _ _))
  | case6 => exact List.suffix_refl _

theorem readHex_leaves : ∀ (k n : Nat) (cs : List Char), Leaves Prod.snd cs (readHex k n cs)
  | 0, n, cs => .some (List.suffix_refl cs)
  | k + 1, n, [] => .none
  | k + 1, n, c :: cs => by
    rw [readHex]
    exact .bind (p := fun _ => c :: cs) (fun _ _ => List.suffix_refl _) fun d => .cons (readHex_leaves k _ cs)

theorem readCodePoint_leaves (k : Nat) (cs : List Char) : Leaves Prod.snd cs (readCodePoint k cs) :=
  .bind (readHex_leaves k 0 cs) fun _ => .ite (.some (List.suffix_refl _)) .none

theorem readEscape_leaves (cs : List Char) : Leaves Prod.snd cs (readEscape cs) := by
  unfold readEscape
  split
  case h_8 => exact .cons (readCodePoint_leaves 4 _)
  case h_9 => exact .cons (readCodePoint_leaves 8 _)
  case h_10 => exact .none
  all_goals exact .cons (.some (List.suffix_refl _))

theorem Leaves.before {o : Option (List Char × List Char)} (front : List Char)
    (h : Leaves Prod.snd cs o) : Leaves Prod.snd cs (before front o) := by
  unfold OnDemand.Toml.before
  split
  · exact .none
  · rename_i ds rest
    exact .some (h (ds, rest) rfl)

theorem Leaves.asString {o : Option (List Char × List Char)} (h : Leaves Prod.snd cs o) :
    Leaves Prod.snd cs (asString o) := by
  unfold OnDemand.Toml.asString
  split
  · exact .none
  · rename_i ds rest
    exact .some (h (ds, rest) rfl)

theorem readBasic_leaves (cs : List Char) : Leaves Prod.snd cs (readBasic cs) := by
  fun_induction readBasic cs with
  | case1 => exact .none
  | case2 cs => exact .cons (.some (List.suffix_refl _))
  | case3 cs c rest h _ ih =>
    have hrest : rest <:+ cs := readEscape_leaves cs _ h
    exact .cons (.before _ (ih.trans hrest))
  | case4 => exact .none
  | case5 c cs _ _ _ ih => exact .cons (.before _ ih)
  | case6 => exact .none

theorem readBlock_leaves (cs : List Char) : Leaves Prod.snd cs (readBlock cs) := by
  fun_induction readBlock cs with
  | case1 => exact .none
  | case2 cs => exact .cons (.cons (.cons (.cons (.cons (.some (List.suffix_refl _))))))
  | case3 cs => exact .cons (.cons (.cons (.cons (.some (List.suffix_refl _)))))
  | case4 cs => exact .cons (.cons (.cons (.some (List.suffix_refl _))))
  | case5 cs ih => exact .cons (.before _ ih)
  | case6 cs ih => exact .cons (.cons (.before _ ih))
  | case7 cs _ _ ih => exact .cons (ih.trans (skipBlankLines_suffix cs))
  | case8 cs _ c rest h _ ih =>
    have hrest : rest <:+ cs := readEscape_leaves cs _ h
    exact .cons (.before _ (ih.trans hrest))
  | case9 => exact .none
  | case10 c cs _ _ _ _ _ _ _ ih => exact .cons (.before _ ih)
  | case11 => exact .none

theorem readLiteral_leaves (cs : List Char) : Leaves Prod.snd cs (readLiteral cs) := by
  fun_induction readLiteral cs with
  | case1 => exact .none
  | case2 cs => exact .cons (.some (List.suffix_refl _))
  | case3 c cs _ _ ih => exact .cons (.before _ ih)
  | case4 => exact .none

theorem readLiteralBlock_leaves (cs : List Char) : Leaves Prod.snd cs (readLiteralBlock cs) := by
  fun_induction readLiteralBlock cs with
  | case1 => exact .none
  | case2 cs => exact .cons (.cons (.cons (.cons (.cons (.some (List.suffix_refl _))))))
  | case3 cs => exact .cons (.cons (.cons (.cons (.some (List.suffix_refl _)))))
  | case4 cs => exact .cons (.cons (.cons (.some (List.suffix_refl _))))
  | case5 cs ih => exact .cons (.before _ ih)
  | case6 cs ih => exact .cons (.cons (.before _ ih))
  | case7 c cs _ _ _ _ _ _ ih => exact .cons (.before _ ih)
  | case8 => exact .none

theorem skipFirstNewline_suffix (cs : List Char) : skipFirstNewline cs <:+ cs :=
  (afterNewline?_leaves cs).getD (List.suffix_refl cs)

theorem readLineString_leaves (cs : List Char) : Leaves Prod.snd cs (readLineString cs) := by
  fun_cases readLineString cs with
  | case1 cs => exact .cons (.asString (readBasic_leaves cs))
  | case2 cs => exact .cons (.asString (readLiteral_leaves cs))
  | case3 => exact .none

theorem readString_leaves (cs : List Char) : Leaves Prod.snd cs (readString cs) := by
  fun_cases readString cs with
  | case1 cs =>
    exact .cons (.cons (.cons (.asString ((readBlock_leaves _).trans (skipFirstNewline_suffix cs)))))
  | case2 cs =>
    exact .cons (.cons (.cons (.asString ((readLiteralBlock_leaves _).trans (skipFirstNewline_suffix cs)))))
  | case3 => exact readLineString_leaves cs

/-! ## Dates and times -/

theorem readDecimal_leaves : ∀ (k n : Nat) (cs : List Char), Leaves Prod.snd cs (readDecimal k n cs)
  | 0, n, cs => .some (List.suffix_refl cs)
  | k + 1, n, [] => .none
  | k + 1, n, c :: cs => by
    rw [readDecimal]
    exact .ite (.cons (readDecimal_leaves k _ cs)) .none

theorem afterTwo?_leaves (least most : Nat) (cs : List Char) : Leaves id cs (afterTwo? least most cs) :=
  .bind (readDecimal_leaves 2 0 cs) fun _ => .ite (.some (List.suffix_refl _)) .none

theorem afterChar?_leaves (c : Char) : ∀ cs : List Char, Leaves id cs (afterChar? c cs)
  | [] => .none
  | _ :: _ => .ite (.cons (.some (List.suffix_refl _))) .none

theorem afterDate?_leaves (cs : List Char) : Leaves id cs (afterDate? cs) :=
  .bind (readDecimal_leaves 4 0 cs) fun _ => .bind (afterChar?_leaves '-' _) fun _ =>
    .bind (readDecimal_leaves 2 0 _) fun _ => .bind (afterChar?_leaves '-' _) fun _ =>
      .ite (afterTwo?_leaves _ _ _) .none

theorem afterSubsecond_suffix (cs : List Char) : afterSubsecond cs <:+ cs := by
  fun_cases afterSubsecond cs with
  | case1 c cs => exact (List.dropWhile_suffix _).trans ((List.suffix_cons _ _).trans (List.suffix_cons _ _))
  | case2 => exact List.suffix_refl _
  | case3 => exact List.suffix_refl _

theorem afterTime?_leaves (cs : List Char) : Leaves id cs (afterTime? cs) :=
  .bind (afterTwo?_leaves 0 23 cs) fun _ => .bind (afterChar?_leaves ':' _) fun _ =>
    .bind (afterTwo?_leaves 0 59 _) fun _ => .bind (afterChar?_leaves ':' _) fun _ =>
      .bind (afterTwo?_leaves 0 60 _) fun _ => .some (afterSubsecond_suffix _)

theorem afterHours?_leaves (cs : List Char) : Leaves id cs (afterHours? cs) :=
  .bind (afterTwo?_leaves 0 23 cs) fun _ => .bind (afterChar?_leaves ':' _) fun _ =>
    afterTwo?_leaves 0 59 _

theorem afterOffset_suffix (cs : List Char) : afterOffset cs <:+ cs := by
  fun_cases afterOffset cs with
  | case1 cs => exact List.suffix_cons _ _
  | case2 cs => exact List.suffix_cons _ _
  | case3 cs => exact (afterHours?_leaves cs).cons.getD (List.suffix_refl _)
  | case4 cs => exact (afterHours?_leaves cs).cons.getD (List.suffix_refl _)
  | case5 => exact List.suffix_refl _

theorem afterDateTime_suffix (cs : List Char) : afterDateTime cs <:+ cs := by
  fun_cases afterDateTime cs with
  | case1 => exact List.suffix_refl _
  | case2 c cs _ rest h =>
    have hrest : rest <:+ cs := afterTime?_leaves cs rest h
    exact (afterOffset_suffix rest).trans (hrest.trans (List.suffix_cons _ _))
  | case3 => exact List.suffix_refl _
  | case4 => exact List.suffix_refl _

theorem afterMoment?_leaves (cs : List Char) : Leaves id cs (afterMoment? cs) := by
  fun_cases afterMoment? cs with
  | case1 rest h => exact .some ((afterDateTime_suffix rest).trans (afterDate?_leaves cs rest h))
  | case2 => exact afterTime?_leaves cs

/-! ## Numbers -/

theorem readMoreDigits_leaves (base : Nat) (cs : List Char) :
    Leaves Prod.snd cs (readMoreDigits base cs) := by
  fun_induction readMoreDigits base cs with
  | case1 => exact .some (List.suffix_refl _)
  | case2 => exact .none
  | case3 c cs d ds rest h _ ih => exact .cons (.cons (.some (ih (ds, rest) h)))
  | case4 => exact .none
  | case5 => exact .some (List.suffix_refl _)
  | case6 c cs _ d _ ih => exact .cons (.map ih fun _ => rfl)

theorem readDigits_leaves (base : Nat) (cs : List Char) : Leaves Prod.snd cs (readDigits base cs) := by
  unfold readDigits
  split
  · exact .none
  · split
    · exact .none
    · exact .cons (.map (readMoreDigits_leaves base _) fun _ => rfl)

theorem readSign_suffix (cs : List Char) : (readSign cs).2 <:+ cs := by
  unfold readSign
  split
  · exact List.suffix_cons _ _
  · exact List.suffix_cons _ _
  · exact List.suffix_refl _

theorem readWhole_leaves (cs : List Char) : Leaves Prod.snd cs (readWhole cs) := by
  unfold readWhole
  split
  · exact .cons (.some (List.suffix_refl _))
  · exact readDigits_leaves 10 cs

theorem integerInRange_leaves (n : Int) (rest : List Char) :
    Leaves Prod.snd rest (integerInRange n rest) :=
  .ite (.some (List.suffix_refl _)) .none

theorem readInteger_leaves (cs : List Char) : Leaves Prod.snd cs (readInteger cs) := by
  have hbased : ∀ base (cs : List Char), Leaves Prod.snd cs ((readDigits base cs).bind
      fun x => integerInRange (ofDigits base x.1) x.2) :=
    fun base cs => .bind (readDigits_leaves base cs) fun _ => integerInRange_leaves _ _
  unfold readInteger
  split
  · exact .cons (.cons (hbased 16 _))
  · exact .cons (.cons (hbased 8 _))
  · exact .cons (.cons (hbased 2 _))
  · exact .bind ((readWhole_leaves _).trans (readSign_suffix cs)) fun _ => integerInRange_leaves _ _

theorem readExponent_leaves (cs : List Char) : Leaves Prod.snd cs (readExponent cs) :=
  .map ((readDigits_leaves 10 _).trans (readSign_suffix cs)) fun _ => rfl

theorem readOptionalExponent_leaves (cs : List Char) :
    Leaves Prod.snd cs (readOptionalExponent cs) := by
  unfold readOptionalExponent
  split
  · exact .cons (readExponent_leaves _)
  · exact .cons (readExponent_leaves _)
  · exact .some (List.suffix_refl _)

theorem readFraction_leaves (cs : List Char) : Leaves Prod.snd cs (readFraction cs) := by
  unfold readFraction
  split
  · exact .cons (.bind (readDigits_leaves 10 _) fun _ => .map (readOptionalExponent_leaves _) fun _ => rfl)
  · exact .cons (.map (readExponent_leaves _) fun _ => rfl)
  · exact .cons (.map (readExponent_leaves _) fun _ => rfl)
  · exact .none

theorem afterFloat?_leaves (cs : List Char) : Leaves id cs (afterFloat? cs) := by
  refine Leaves.trans (?_ : Leaves id (readSign cs).2 (afterFloat? cs)) (readSign_suffix cs)
  unfold afterFloat?
  simp only
  split
  · rename_i h
    rw [h]
    exact .cons (.cons (.cons (.some (List.suffix_refl _))))
  · rename_i h
    rw [h]
    exact .cons (.cons (.cons (.some (List.suffix_refl _))))
  · exact .bind (readWhole_leaves _) fun _ => .bind (readFraction_leaves _) fun _ =>
      .ite .none (.some (List.suffix_refl _))

/-! ## Keys and values -/

theorem readPart_leaves (cs : List Char) : Leaves Prod.snd cs (readPart cs) := by
  fun_cases readPart cs with
  | case1 x h => exact .some (readLineString_leaves cs x h)
  | case2 => exact .none
  | case3 => exact .some (List.dropWhile_suffix _)

theorem readKeyWithin_leaves : ∀ (n : Nat) (cs : List Char), Leaves Prod.snd cs (readKeyWithin n cs)
  | 0, cs => .none
  | n + 1, cs => by
    rw [readKeyWithin]
    split
    · exact .none
    · rename_i part rest hpart
      have hrest : skipSpace rest <:+ cs := (skipSpace_suffix rest).trans
        ((readPart_leaves _ _ hpart).trans (skipSpace_suffix cs))
      split
      · rename_i ds hds
        rw [hds] at hrest
        exact .map ((readKeyWithin_leaves n ds).cons.trans hrest) fun _ => rfl
      · exact .some hrest

theorem readScalar_leaves (cs : List Char) : Leaves Prod.snd cs (readScalar cs) := by
  unfold readScalar
  split
  · exact .cons (.cons (.cons (.cons (.some (List.suffix_refl _)))))
  · exact .cons (.cons (.cons (.cons (.cons (.some (List.suffix_refl _))))))
  · split
    · rename_i s rest h
      exact .some (readString_leaves _ (s, rest) h)
    · split
      · rename_i rest h
        exact .some (afterMoment?_leaves _ rest h)
      · split
        · rename_i rest h
          exact .some (afterFloat?_leaves _ rest h)
        · exact .map (readInteger_leaves _) fun _ => rfl

theorem readItems_leaves {item : Reader Value} (hitem : ∀ cs, Leaves Prod.snd cs (item cs)) :
    ∀ (n : Nat) (cs : List Char), Leaves Prod.snd cs (readItems item n cs)
  | 0, cs => .none
  | n + 1, cs => by
    refine Leaves.trans ?_ (skipLayout_suffix cs)
    rw [readItems]
    split
    · rename_i h
      rw [h]
      exact .cons (.some (List.suffix_refl _))
    · split
      · exact .none
      · rename_i v rest hv
        have hrest := (skipLayout_suffix rest).trans (hitem _ _ hv)
        split
        · rename_i h
          rw [h] at hrest
          exact .some ((List.suffix_cons _ _).trans hrest)
        · rename_i ds h
          rw [h] at hrest
          exact .map ((readItems_leaves hitem n ds).cons.trans hrest) fun _ => rfl
        · exact .none

section
variable {value : Reader Value} (hvalue : ∀ cs, Leaves Prod.snd cs (value cs))
include hvalue

theorem readAssignment_leaves (cs : List Char) : Leaves Prod.snd cs (readAssignment value cs) := by
  unfold readAssignment
  split
  · rename_i k rest hk
    have hrest := readKeyWithin_leaves keyLimit cs _ hk
    exact .map (((hvalue _).trans (skipSpace_suffix rest)).cons.trans hrest) fun _ => rfl
  · exact .none

theorem readMembers_leaves : ∀ (n : Nat) (cs : List Char), Leaves Prod.snd cs (readMembers value n cs)
  | 0, cs => .none
  | n + 1, cs => by
    rw [readMembers]
    split
    · exact .none
    · rename_i a rest ha
      have hrest := (skipSpace_suffix rest).trans (readAssignment_leaves hvalue _ _ ha)
      split
      · rename_i h
        rw [h] at hrest
        exact .some ((List.suffix_cons _ _).trans hrest)
      · rename_i ds h
        rw [h] at hrest
        exact .map ((readMembers_leaves n ds).cons.trans hrest) fun _ => rfl
      · exact .none

theorem readBraces_leaves (cs : List Char) : Leaves Prod.snd cs (readBraces value cs) := by
  refine Leaves.trans ?_ (skipSpace_suffix cs)
  unfold readBraces
  split
  · rename_i h
    rw [h]
    exact .cons (.some (List.suffix_refl _))
  · split
    · exact .none
    · rename_i as rest has
      have hrest := readMembers_leaves hvalue _ _ _ has
      exact .map (p := fun _ => rest) (fun _ _ => hrest) fun _ => rfl

end

theorem readValueWithin_zero (cs : List Char) : readValueWithin 0 cs = readScalar cs := by
  rw [readValueWithin]
  · rintro _ _ ⟨⟩
  · rintro _ _ ⟨⟩

theorem readValueWithin_leaves : ∀ (n : Nat) (cs : List Char),
    Leaves Prod.snd cs (readValueWithin n cs)
  | 0, cs => by
    rw [readValueWithin_zero]
    exact readScalar_leaves cs
  | n + 1, cs => by
    have ih := readValueWithin_leaves n
    rw [readValueWithin.eq_def]
    split
    · rename_i k ds h
      cases h
      exact .cons (.map (readItems_leaves ih _ _) fun _ => rfl)
    · rename_i k ds h
      cases h
      exact .cons (readBraces_leaves ih _)
    · exact readScalar_leaves _

/-! ## Statements -/

theorem readStatement_leaves (cs : List Char) : Leaves Prod.snd cs (readStatement cs) := by
  have hkey : ∀ {k rest} {cs : List Char}, readKey cs = some (k, rest) → rest <:+ cs :=
    fun h => readKeyWithin_leaves keyLimit _ _ h
  unfold readStatement
  split
  · rename_i ds
    split
    · rename_i k rest h
      have hrest : rest <:+ ds := ((List.suffix_cons _ _).trans (List.suffix_cons _ _)).trans (hkey h)
      exact .cons (.cons (.some hrest))
    · exact .none
  · rename_i ds _
    split
    · rename_i k rest h
      have hrest : rest <:+ ds := (List.suffix_cons _ _).trans (hkey h)
      exact .cons (.some hrest)
    · exact .none
  · exact .map (readAssignment_leaves (readValueWithin_leaves nestingLimit) _) fun _ => rfl

end OnDemand.Toml
