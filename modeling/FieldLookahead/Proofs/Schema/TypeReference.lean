import FieldLookahead.Proofs.Syntax.Word
import FieldLookahead.Schema.TypeReference
import Mathlib.Logic.Equiv.Defs

namespace FieldLookahead.Schema.TypeReference

/-! A reference and the written type that makes it tell the same, and so does their common text. -/

open Syntax (TypeForm isName)

variable {reference one other : TypeReference}

def ofFormWith (nullable : Bool) : TypeForm → TypeReference
  | .named name => named name nullable
  | .list item => list (ofFormWith true item) nullable
  | .required form => ofFormWith false form

theorem ofFormWith_eq (nullable : Bool) (form : TypeForm) :
    ofFormWith nullable form = if nullable then ofForm form else (ofForm form).required := by
  induction form generalizing nullable with
  | named name => cases nullable <;> rfl
  | list item ih => cases nullable <;> simp [ofFormWith, ofForm, required, ih]
  | required form ih =>
      rw [ofFormWith, ih, ofForm]
      cases ofForm form <;> cases nullable <;> rfl

/-! The written type that makes a reference. -/

def toForm : TypeReference → TypeForm
  | named name true => .named name
  | named name false => .required (.named name)
  | list item true => .list item.toForm
  | list item false => .required (.list item.toForm)

theorem toForm_grammatical (reference : TypeReference) : reference.toForm.IsGrammatical := by
  induction reference with
  | named name nullable => cases nullable <;> trivial
  | list item nullable ih => cases nullable <;> exact ih

theorem text_toForm (reference : TypeReference) : reference.toForm.text = reference.text := by
  induction reference with
  | named name nullable => cases nullable <;> simp [toForm, TypeForm.text, text]
  | list item nullable ih => cases nullable <;> simp [toForm, TypeForm.text, text, ih]

theorem ofForm_toForm (reference : TypeReference) : ofForm reference.toForm = reference := by
  induction reference with
  | named name nullable => cases nullable <;> rfl
  | list item nullable ih => cases nullable <;> simp [toForm, ofForm, required, ih]

theorem toForm_ofForm : {form : TypeForm} → form.IsGrammatical → (ofForm form).toForm = form
  | .named _, _ => rfl
  | .list _, grammatical => congrArg TypeForm.list (toForm_ofForm grammatical)
  | .required (.named _), _ => rfl
  | .required (.list _), grammatical =>
      congrArg (TypeForm.required <| .list ·) (toForm_ofForm grammatical)

/-- Written types and the references that they make. -/
def formEquiv : {form : TypeForm // form.IsGrammatical} ≃ TypeReference where
  toFun form := ofForm form.1
  invFun reference := ⟨reference.toForm, reference.toForm_grammatical⟩
  left_inv form := Subtype.ext (toForm_ofForm form.2)
  right_inv := ofForm_toForm

/-! The text of a reference with a proper name. -/

def body : TypeReference → String
  | named name _ => name
  | list item _ => "[" ++ item.text ++ "]"

theorem text_eq (reference : TypeReference) :
    reference.text = reference.body ++ if reference.nullable then "" else "!" := by
  cases reference <;> rfl

theorem ends_in_bang_iff (proper : isName reference.typeName = true) :
    reference.text.toList.getLast? = some '!' ↔ reference.nullable = false := by
  have unmarked : reference.body.toList.getLast? ≠ some '!' := by
    cases reference with
    | named name nullable =>
        intro last
        exact Syntax.notMem_of_isName proper (by decide) (List.mem_of_getLast? last)
    | list item nullable => simp [body, List.getLast?_cons]
  rw [text_eq]
  cases reference.nullable <;> simp [unmarked]

theorem body_inj_of_text (proper : isName one.typeName = true)
    (proper' : isName other.typeName = true) (same : one.text = other.text) :
    one.body = other.body ∧ one.nullable = other.nullable := by
  have marks : one.nullable = other.nullable := by
    rw [← Bool.not_inj_iff, Bool.eq_iff_iff, Bool.not_eq_true', Bool.not_eq_true',
      ← ends_in_bang_iff proper, ← ends_in_bang_iff proper', same]
  rw [text_eq, text_eq, marks] at same
  exact ⟨(String.append_left_inj _).mp same, marks⟩

theorem body_list_ne {name : String} (proper : isName name = true) (item : TypeReference)
    (nullable : Bool) : (list item nullable).body ≠ name := by
  have bracket : '[' ∉ name.toList := Syntax.notMem_of_isName proper (by decide)
  rintro rfl
  simp [body] at bracket

theorem text_inj (proper : isName one.typeName = true) (proper' : isName other.typeName = true)
    (same : one.text = other.text) : one = other := by
  induction one generalizing other with
  | named name nullable =>
      obtain ⟨bodies, rfl⟩ := body_inj_of_text proper proper' same
      cases other with
      | named name' nullable' => exact congrArg (named · nullable') bodies
      | list item' nullable' => exact absurd bodies.symm (body_list_ne proper item' nullable')
  | list item nullable ih =>
      obtain ⟨bodies, rfl⟩ := body_inj_of_text proper proper' same
      cases other with
      | named name' nullable' => exact absurd bodies (body_list_ne proper' item nullable')
      | list item' nullable' =>
          have items : item.text = item'.text :=
            (String.append_right_inj _).mp ((String.append_left_inj _).mp bodies)
          exact congrArg (list · nullable') (ih proper proper' items)

/-- The text of a reference is that of the written type that makes it, only one written type makes
it, and no other reference with a proper name has its text. -/
theorem written_faithfully :
    (∀ form : TypeForm, form.IsGrammatical → (ofForm form).text = form.text) ∧
    (∀ form form' : TypeForm, form.IsGrammatical → form'.IsGrammatical →
      ofForm form = ofForm form' → form = form') ∧
    ∀ one other : TypeReference, isName one.typeName = true → isName other.typeName = true →
      one.text = other.text → one = other := by
  refine ⟨fun form grammatical => ?_, fun form form' grammatical grammatical' same => ?_,
    fun _ _ => text_inj⟩
  · rw [← text_toForm, toForm_ofForm grammatical]
  · have images : formEquiv ⟨form, grammatical⟩ = formEquiv ⟨form', grammatical'⟩ := same
    exact congrArg Subtype.val (formEquiv.injective images)

def requiredGrid : TypeForm := .required (.list (.list (.required (.named "Int"))))

def gridOfRequired : TypeForm := .required (.list (.required (.list (.named "Int"))))

theorem written_faithfully_of_grids :
    requiredGrid.IsGrammatical ∧ gridOfRequired.IsGrammatical ∧
    (ofForm requiredGrid).text = requiredGrid.text ∧
    ofForm requiredGrid ≠ ofForm gridOfRequired ∧
    isName (ofForm requiredGrid).typeName = true ∧ isName (ofForm gridOfRequired).typeName = true ∧
    (ofForm requiredGrid).text ≠ (ofForm gridOfRequired).text := by
  have grid : requiredGrid.IsGrammatical := trivial
  have grid' : gridOfRequired.IsGrammatical := trivial
  have proper : isName (ofForm requiredGrid).typeName = true := by decide
  have proper' : isName (ofForm gridOfRequired).typeName = true := by decide
  have apart : ofForm requiredGrid ≠ ofForm gridOfRequired := fun same =>
    absurd (written_faithfully.2.1 _ _ grid grid' same) (by decide)
  exact ⟨grid, grid', written_faithfully.1 _ grid, apart, proper, proper',
    fun same => apart (written_faithfully.2.2 _ _ proper proper' same)⟩

end FieldLookahead.Schema.TypeReference
