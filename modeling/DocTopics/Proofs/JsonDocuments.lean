import DocTopics.Proofs.JsonText

/-!
# JSON documents determine their topics

Every part of a topic is encoded so that it can be told from its encoding: a missing value is `null`,
which no value is encoded as, and no two kinds of declarations are written alike. So two topics with
one document agree on all that the document shows, which is everything but the place of a topic in
its source and the names it lost to symbols.

## Main statements

- `Json.ofTopic_eq_iff` — which topics are encoded alike
- `Json.render_eq_iff` — which topics have the same document
-/

namespace DocTopics

open Function (Injective)

theorem DocType.word_injective : Injective DocType.word := by
  intro a b h
  cases a <;> cases b <;> first | rfl | exact absurd h (by decide)

namespace Json

/-! ### Parts of topics -/

/-- A missing value can be told from all others. -/
theorem ofOption_injective {α : Type} {encode : α → Json} (hencode : Injective encode)
    (hnull : ∀ a, encode a ≠ .null) : Injective (ofOption encode) := by
  intro a b h
  cases a with
  | none =>
    cases b with
    | none => rfl
    | some b => exact absurd h.symm (hnull b)
  | some a =>
    cases b with
    | none => exact absurd h (hnull a)
    | some b => exact congrArg some (hencode h)

theorem str_injective : Injective Json.str := fun _ _ h => Json.str.inj h

theorem ofStrings_injective : Injective ofStrings := fun _ _ h =>
  List.map_injective_iff.2 str_injective (Json.arr.inj h)

theorem ofPassage_injective : Injective ofPassage := by
  rintro ⟨text, explicit⟩ ⟨text', explicit'⟩ h
  simpa [ofPassage] using h

theorem ofParam_injective : Injective ofParam := by
  rintro ⟨name, description⟩ ⟨name', description'⟩ h
  simpa [ofParam] using h

theorem ofOption_str_injective : Injective (ofOption Json.str) :=
  ofOption_injective str_injective (by simp)

theorem ofOption_ofPassage_injective : Injective (ofOption ofPassage) :=
  ofOption_injective ofPassage_injective (by simp [ofPassage])

mutual

theorem ofSection_inj : ∀ s t : Section, ofSection s = ofSection t → s = t
  | ⟨title, body, subsections⟩, ⟨title', body', subsections'⟩, h => by
    simp only [ofSection, Json.obj.injEq, List.cons.injEq, Prod.mk.injEq, true_and, and_true,
      Json.str.injEq, Json.arr.injEq] at h
    obtain ⟨rfl, rfl, hsubsections⟩ := h
    rw [ofSections_inj subsections subsections' hsubsections]

theorem ofSections_inj : ∀ ss ts : List Section, ofSections ss = ofSections ts → ss = ts
  | [], [], _ => rfl
  | [], _ :: _, h => by simp [ofSections] at h
  | _ :: _, [], h => by simp [ofSections] at h
  | s :: ss, t :: ts, h => by
    rw [ofSections, ofSections, List.cons.injEq] at h
    rw [ofSection_inj s t h.1, ofSections_inj ss ts h.2]

end

theorem ofSections_injective : Injective ofSections := fun ss ts => ofSections_inj ss ts

theorem ofKind_injective : Injective ofKind := by
  intro a b h
  rcases a with _ | _ | _ | _ | _ | (_ | _) <;> rcases b with _ | _ | _ | _ | _ | (_ | _) <;>
    first | rfl | simp [ofKind] at h

theorem ofDeclaration_injective : Injective ofDeclaration := by
  rintro ⟨kind, name, formals, dispatch, line⟩ ⟨kind', name', formals', dispatch', line'⟩ h
  simp only [ofDeclaration, Json.obj.injEq, List.cons.injEq, Prod.mk.injEq, true_and, and_true,
    Json.num.injEq, ofKind_injective.eq_iff, ofOption_str_injective.eq_iff,
    ofStrings_injective.eq_iff] at h
  simpa using h

theorem ofSubject_injective : Injective ofSubject := by
  rintro ⟨unit, declaration, s3, names⟩ ⟨unit', declaration', s3', names'⟩ h
  simp only [ofSubject, Json.obj.injEq, List.cons.injEq, Prod.mk.injEq, true_and, and_true,
    Json.str.injEq, Json.bool.injEq, ofDeclaration_injective.eq_iff, ofStrings_injective.eq_iff] at h
  simpa using h

/-! ### Topics -/

/-- Topics are encoded alike exactly if they differ at most in their place and in the names they lost
to symbols, and these make no difference to their alias lines. -/
theorem ofTopic_eq_iff {t u : Topic} :
    ofTopic t = ofTopic u ↔
      u = { t with place := u.place, pos := u.pos, shadowedAliases := u.shadowedAliases } ∧
      t.aliasLines = u.aliasLines := by
  constructor
  · intro h
    simp only [ofTopic, Json.obj.injEq, List.cons.injEq, Prod.mk.injEq, true_and, and_true,
      Json.str.injEq, Json.bool.injEq, Json.arr.injEq, ofOption_str_injective.eq_iff,
      ofOption_ofPassage_injective.eq_iff, ofStrings_injective.eq_iff,
      (List.map_injective_iff.2 ofParam_injective).eq_iff, ofSections_injective.eq_iff,
      (List.map_injective_iff.2 ofSubject_injective).eq_iff, DocType.word_injective.eq_iff] at h
    obtain ⟨hid, htitle, hdescription, hdetails, husage, hvalue, hparams, hsections, hdocType,
      hexported, haliases, hfamilies, hreferences, hseeAlso, hkeywords, hexamples, hformat, hsource,
      hslots, hfields, hinheritParams, hnoRd, hsubjects, -, hlines⟩ := h
    refine ⟨?_, hlines⟩
    cases u
    simp_all only
  · rintro ⟨hagree, haliases⟩
    generalize u.place = place, u.pos = pos, u.shadowedAliases = names at hagree
    subst hagree
    rw [ofTopic, ofTopic, haliases]
    rfl

/-- Topics have the same document exactly if they differ at most in their place and in the names they
lost to symbols, and these make no difference to their alias lines. -/
theorem render_eq_iff (t u : Topic) :
    render t = render u ↔
      u = { t with place := u.place, pos := u.pos, shadowedAliases := u.shadowedAliases } ∧
      t.aliasLines = u.aliasLines := by
  rw [← ofTopic_eq_iff]
  constructor
  · intro h
    exact pretty_injective 0 (String.append_left_inj "\n" |>.1 h)
  · intro h
    rw [render, render, h]

end Json

end DocTopics
