import LambdaReader.Proofs.WellFormed
import LambdaReader.Proofs.Relocation
import LambdaReader.Node.Equality

/-!
# `Proofs.Equality` — trees that are the same but for their spans

Equality of trees compares numbers as numbers, so a tree with a missing number is not equal to itself.
No numeral stands for the missing number: it is made by no rounding, and by multiplication and division
only from itself, from infinities or from zeros. So the trees that text is read as are equal to what is
the same without spans.

## Main results
- `Decimal.toFloat_beq_self`: the float of a decimal equals itself;
- `Node.IsProgram.beq_of_bare`: programs that are the same without spans are equal.
-/

namespace LambdaReader

/-! ## Numbers -/

namespace Decimal

open Float.Model

theorem beq_self_of_ne {u : UnpackedFloat} (h : u ≠ .notANumber) : u.beq u = true := by
  unfold UnpackedFloat.beq
  cases u with
  | notANumber => exact absurd rfl h
  | infinity sign => cases sign <;> rfl
  | zero sign => cases sign <;> rfl
  | finite sign m e hm =>
    have hsame : (compare e e).then (compare m m) = .eq := by simp
    cases sign with
    | negative =>
      show (some ((compare e e).then (compare m m)).swap == some .eq) = true
      rw [hsame]
      rfl
    | positive =>
      show (some ((compare e e).then (compare m m)) == some .eq) = true
      rw [hsame]
      rfl

theorem dite_ne {c : Prop} [Decidable c] {x : c → UnpackedFloat} {y : ¬c → UnpackedFloat}
    {u : UnpackedFloat} (hx : ∀ h, x h ≠ u) (hy : ∀ h, y h ≠ u) : dite c x y ≠ u := by
  by_cases h : c
  · rw [dif_pos h]
    exact hx h
  · rw [dif_neg h]
    exact hy h

/-- Only the missing number has all bits of the exponent set and some bit of the mantissa. -/
theorem unpack_packComponents_ne {spec : Format} {sign : UnpackedFloat.Sign} {e : BitVec spec.exponentBits}
    {m : BitVec spec.mantissaBitsWithoutImplicit}
    (h : e ≠ .allOnes _ ∨ m = .ofNat _ 0) :
    UnpackedFloat.unpack spec (UnpackedFloat.packComponents spec sign e m) ≠ .notANumber := by
  refine dite_ne (fun he => ?_) fun _ => dite_ne (fun _ => ?_) fun _ => UnpackedFloat.noConfusion
  · rw [UnpackedFloat.unpackExponent_packComponents, BitVec.neg_one_eq_allOnes] at he
    rw [UnpackedFloat.unpackMantissa_packComponents, if_pos (h.resolve_left (not_not_intro he))]
    exact UnpackedFloat.noConfusion
  · exact dite_ne (fun _ => UnpackedFloat.noConfusion) fun _ => UnpackedFloat.noConfusion

/-- Packing loses digits, but makes no number a missing one. -/
theorem unpack_pack_ne {spec : Format} {u : UnpackedFloat} (h : u ≠ .notANumber) :
    UnpackedFloat.unpack spec (UnpackedFloat.pack spec u) ≠ .notANumber := by
  cases u with
  | notANumber => exact absurd rfl h
  | infinity sign => exact unpack_packComponents_ne (.inr rfl)
  | zero sign => exact unpack_packComponents_ne (.inr rfl)
  | finite sign m e hm =>
    unfold UnpackedFloat.pack
    dsimp only
    split
    · exact unpack_packComponents_ne (.inr rfl)
    · next hsmall =>
      have htwo : 2 ≤ 2 ^ spec.exponentBits := Nat.le_self_pow (Nat.ne_of_gt spec.he) 2
      split
      · refine unpack_packComponents_ne (.inl fun hones => ?_)
        have hall := congrArg BitVec.toNat hones
        rw [BitVec.toNat_allOnes, BitVec.toNat_ofNat, Nat.mod_eq_of_lt (by omega)] at hall
        omega
      · refine unpack_packComponents_ne (.inl fun hones => ?_)
        have hall := congrArg BitVec.toNat hones
        rw [BitVec.toNat_allOnes, BitVec.toNat_ofNat, Nat.zero_mod] at hall
        omega

theorem roundWithAccuracy_ne (spec : Format) (sign : UnpackedFloat.Sign) (m : Nat) (e : Int)
    (accuracy : UnpackedFloat.Accuracy) :
    UnpackedFloat.roundWithAccuracy spec sign m e accuracy ≠ .notANumber := by
  unfold UnpackedFloat.roundWithAccuracy
  exact dite_ne (fun _ => UnpackedFloat.noConfusion) fun _ => UnpackedFloat.noConfusion

/-- A number that is neither zero nor infinite. -/
def IsOrdinary : UnpackedFloat → Bool
  | .finite .. => true
  | _ => false

theorem mul_ne {spec : Format} {u v : UnpackedFloat} (hu : u ≠ .notANumber) (hv : IsOrdinary v = true) :
    UnpackedFloat.mul spec u v ≠ .notANumber := by
  cases v with
  | notANumber | infinity | zero => cases hv
  | finite sign m e hm =>
    cases u with
    | notANumber => exact absurd rfl hu
    | infinity => nofun
    | zero => nofun
    | finite => exact roundWithAccuracy_ne _ _ _ _ _

theorem div_ne {spec : Format} {u v : UnpackedFloat} (hu : u ≠ .notANumber) (hv : IsOrdinary v = true) :
    UnpackedFloat.div spec u v ≠ .notANumber := by
  cases v with
  | notANumber | infinity | zero => cases hv
  | finite sign m e hm =>
    cases u with
    | notANumber => exact absurd rfl hu
    | infinity => nofun
    | zero => nofun
    | finite => exact roundWithAccuracy_ne _ _ _ _ _

theorem ofScientific_ne (spec : Format) (m : Nat) (e : Int) :
    UnpackedFloat.ofScientific spec m e ≠ .notANumber := by
  unfold UnpackedFloat.ofScientific
  refine dite_ne (fun _ => UnpackedFloat.noConfusion) fun _ => ?_
  refine dite_ne (fun _ => UnpackedFloat.noConfusion) fun _ => ?_
  refine dite_ne (fun _ => UnpackedFloat.noConfusion) fun _ => dite_ne (fun _ => ?_) fun _ => ?_
  · exact mul_ne UnpackedFloat.noConfusion rfl
  · exact div_ne UnpackedFloat.noConfusion rfl

theorem ofNat_ne (spec : Format) (n : Nat) : UnpackedFloat.ofNat spec n ≠ .notANumber := by
  unfold UnpackedFloat.ofNat UnpackedFloat.ofInt UnpackedFloat.normalize
  split
  · exact roundWithAccuracy_ne _ _ _ _ _
  · nofun
  · exact roundWithAccuracy_ne _ _ _ _ _

theorem isOrdinary_power {e : Nat} (h : e < Float.exactlyRepresentablePowersOfTen.size) :
    IsOrdinary Float.exactlyRepresentablePowersOfTen[e].toModel.unpack = true := by
  have hall : Float.exactlyRepresentablePowersOfTen.all (fun x => IsOrdinary x.toModel.unpack) = true := by
    decide +kernel
  exact Array.all_eq_true.mp hall e h

/-- The float of a decimal equals itself. -/
theorem toFloat_beq_self (d : Decimal) : (d.toFloat == d.toFloat) = true := by
  show d.toFloat.toModel.unpack.beq d.toFloat.toModel.unpack = true
  refine beq_self_of_ne ?_
  unfold Decimal.toFloat Float.ofScientific
  split
  · -- Short decimals are scaled by a power of ten that is a float itself.
    next h =>
    have hpower := isOrdinary_power (e := d.exponent.natAbs) (Nat.lt_succ_of_le h.2)
    have hwhole : (UInt64.toFloat d.significand.toUInt64).toModel.unpack ≠ .notANumber :=
      unpack_pack_ne (ofNat_ne _ _)
    dsimp only
    split
    · exact unpack_pack_ne (div_ne hwhole hpower)
    · exact unpack_pack_ne (mul_ne hwhole hpower)
  · exact unpack_pack_ne (ofScientific_ne _ _ _)

end Decimal

/-! ## Trees -/

namespace Node

theorem sameAll_of_bareAll {ns ms : List Node} (h : ∀ n ∈ ns, ∀ m : Node, n.bare = m.bare → n.same m = true)
    (hbare : bareAll ns = bareAll ms) : sameAll ns ms = true := by
  induction ns generalizing ms with
  | nil =>
    cases ms with
    | nil => rfl
    | cons => cases hbare
  | cons n ns ih =>
    cases ms with
    | nil => cases hbare
    | cons m ms =>
      obtain ⟨hn, hns⟩ := List.forall_mem_cons.mp h
      obtain ⟨hfirst, hrest⟩ := List.cons.inj hbare
      rw [sameAll, hn m hfirst, ih hns hrest]
      rfl

/-- Well-formed trees that are the same without spans are equal: their numbers are read from numerals. -/
theorem WellFormed.same_of_bare {n m : Node} (h : n.WellFormed) (hbare : n.bare = m.bare) :
    n.same m = true := by
  -- Both roots are of one constructor, and their parts are the same without spans again.
  induction h generalizing m with
  | number hv =>
    obtain ⟨w, hw⟩ := hv
    cases hw
    cases m <;> simp only [bare, reduceCtorEq, number.injEq] at hbare
    rw [← hbare.1]
    exact Decimal.toFloat_beq_self _
  | string | bool | reference | operator =>
    cases m <;> simp only [bare, reduceCtorEq, string.injEq, bool.injEq, reference.injEq, operator.injEq] at hbare
    rw [hbare.1]
    exact beq_self_eq_true _
  | assign _ _ ihl ihr =>
    cases m <;> simp only [bare, reduceCtorEq, assign.injEq] at hbare
    rw [same, ihl hbare.1, ihr hbare.2.1]
    rfl
  | binary _ _ _ ihl ihr =>
    cases m <;> simp only [bare, reduceCtorEq, binary.injEq] at hbare
    rw [same, hbare.1, ihl hbare.2.1, ihr hbare.2.2.1, beq_self_eq_true]
    rfl
  | ifThen _ _ ihc ihp =>
    cases m <;> simp only [bare, reduceCtorEq, ifThen.injEq] at hbare
    rw [same, ihc hbare.1, ihp hbare.2.1]
    rfl
  | ifElse _ _ _ ihc ihp ihq =>
    cases m <;> simp only [bare, reduceCtorEq, ifElse.injEq] at hbare
    rw [same, ihc hbare.1, ihp hbare.2.1, ihq hbare.2.2.1]
    rfl
  | lambda _ _ ih =>
    cases m <;> simp only [bare, reduceCtorEq, lambda.injEq] at hbare
    rw [same, hbare.1, ih hbare.2.1, beq_self_eq_true]
    rfl
  | call _ _ ihf ihargs =>
    cases m <;> simp only [bare, reduceCtorEq, call.injEq] at hbare
    rw [same, ihf hbare.1, sameAll_of_bareAll (fun a ha _ => ihargs a ha) hbare.2.1]
    rfl
  | program _ _ ih =>
    cases m <;> simp only [bare, reduceCtorEq, program.injEq] at hbare
    rw [same]
    exact sameAll_of_bareAll (fun a ha _ => ih a ha) hbare.1

/-- Programs that are the same without spans are equal. -/
theorem IsProgram.beq_of_bare {n m : Node} (h : n.IsProgram) (hbare : n.bare = m.bare) :
    (n == m) = true := by
  cases h with
  | program hbody =>
    cases m <;> simp only [bare, reduceCtorEq, program.injEq] at hbare
    exact sameAll_of_bareAll (fun e he _ => (hbody e he).same_of_bare) hbare.1

end Node
end LambdaReader
