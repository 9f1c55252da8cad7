import DocTopics.Proofs.Pieces
import DocTopics.Proofs.ReachableKeys

/-!
# Which combinations their keys spell

An index stores the key of a combination and reads it again for every query. Reading trims the
generic, cuts at the first parenthesis and at every comma, takes white space and quotes off the types
and leaves empty ones out. A combination comes back exactly if none of this changes it.

## Main definitions

- `Text.EndsOutside` — a text with neither end in a class

## Main statements

- `Combination.exists_of_ofKey` — what a key that can be read looks like
- `Combination.ofKey_key_eq_iff` — the combinations that come back
-/

namespace DocTopics

/-! ### Ends of texts -/

/-- Neither the first nor the last character is of the class; the empty text has no ends. -/
def Text.EndsOutside (p : Char → Bool) (s : String) : Prop :=
  s.toList.head?.any p = false ∧ s.toList.getLast?.any p = false

instance (p : Char → Bool) (s : String) : Decidable (Text.EndsOutside p s) :=
  inferInstanceAs (Decidable (_ ∧ _))

theorem Text.trim_eq_self_iff_endsOutside {s : String} :
    Text.trim s = s ↔ Text.EndsOutside isBlank s :=
  Text.trim_eq_self_iff.trans Chars.strip_eq_self_iff

theorem Chars.strip_sublist (p : Char → Bool) (cs : List Char) : (strip p cs).Sublist cs :=
  (List.rdropWhile_prefix p _).sublist.trans (List.dropWhile_suffix p).sublist

/-- A list that is kept by changing and then filtering its items has items that are kept by both. -/
theorem forall_of_filter_map_eq_self {α : Type} {f : α → α} {p : α → Bool} {xs : List α}
    (h : (xs.map f).filter p = xs) : ∀ x ∈ xs, f x = x ∧ p x = true := by
  have hlength : ((xs.map f).filter p).length = (xs.map f).length := by
    rw [h, List.length_map]
  have hkept : (xs.map f).filter p = xs.map f :=
    List.filter_eq_self.2 (List.length_filter_eq_length_iff.1 hlength)
  have hmap : xs.map f = xs := hkept.symm.trans h
  have hfix : xs.map f = xs.map id := hmap.trans (List.map_id xs).symm
  intro x hx
  refine ⟨List.map_inj_left.1 hfix x hx, ?_⟩
  rw [← h] at hx
  exact (List.mem_filter.1 hx).2

namespace Combination

/-! ### Reading a key -/

theorem withoutClosing_eq_some_iff {cs inner : List Char} :
    withoutClosing cs = some inner ↔ cs = inner ++ [')'] := by
  constructor
  · intro h
    unfold withoutClosing at h
    split at h
    · rename_i rest hreverse
      rw [← Option.some_inj.1 h, ← List.reverse_cons, ← hreverse, List.reverse_reverse]
    · cases h
  · rintro rfl
    simp [withoutClosing]

/-- The types that are read off the text between the parentheses. -/
def typesOf (inner : List Char) : List (List Char) :=
  ((Chars.pieces (· == ',') inner).map typeOf).filter (!·.isEmpty)

/-- A key that can be read has a parenthesis behind its generic and one at its end. -/
theorem exists_of_ofKey {text : String} {c : Combination} (h : ofKey text = some c) :
    ∃ generic inner, text.toList = generic ++ '(' :: (inner ++ [')']) ∧ '(' ∉ generic ∧
      Chars.blank generic = false ∧ c.generic.toList = Chars.trim generic ∧
      c.types.map String.toList = typesOf inner := by
  unfold ofKey at h
  split at h
  · cases h
  · rename_i generic rest hcut
    obtain ⟨paren, hparen, hfree, htext⟩ := Chars.cutAt_eq_some_iff.1 hcut
    split at h
    · cases h
    · rename_i inner hclosing
      split at h
      · cases h
      · rename_i hblank
        cases h
        refine ⟨generic, inner, ?_, Chars.forall_beq_eq_false_iff.1 hfree, ?_, ?_, ?_⟩
        · rw [htext, beq_iff_eq.1 hparen, withoutClosing_eq_some_iff.1 hclosing]
        · simpa using hblank
        · exact String.toList_ofList
        · simp [typesOf]

theorem comma_notMem_of_mem_typesOf {inner t : List Char} (h : t ∈ typesOf inner) : ',' ∉ t := by
  obtain ⟨piece, hpiece, rfl⟩ := List.mem_map.1 (List.mem_of_mem_filter h)
  have hfree := Chars.forall_beq_eq_false_iff.1 (Chars.sep_of_mem_pieces piece hpiece)
  intro hmem
  exact hfree (Chars.strip_subset _ _ (Chars.strip_subset _ _ hmem))

/-- A type that is read as it stands has neither white space nor quotes at its ends. -/
theorem strip_eq_self_of_typeOf_eq_self {cs : List Char} (h : typeOf cs = cs) :
    Chars.trim cs = cs ∧ Chars.strip isQuote cs = cs := by
  have hquotes : cs.Sublist (Chars.trim cs) := by
    have hsub := Chars.strip_sublist isQuote (Chars.trim cs)
    rwa [← typeOf, h] at hsub
  have htrim : Chars.trim cs = cs := (Chars.strip_sublist isBlank cs).antisymm hquotes
  refine ⟨htrim, ?_⟩
  rwa [typeOf, htrim] at h

/-- Types that are read off their own list have nothing that reading takes away. -/
theorem isType_of_typesOf_join {types : List String}
    (h : typesOf (Text.join "," types).toList = types.map String.toList) :
    ∀ t ∈ types, IsType t := by
  by_cases hne : types = []
  · simp [hne]
  have hcomma : ∀ t ∈ types, ',' ∉ t.toList := by
    intro t ht
    have hmem : t.toList ∈ typesOf (Text.join "," types).toList := by
      rw [h]
      exact List.mem_map_of_mem ht
    exact comma_notMem_of_mem_typesOf hmem
  rw [typesOf, pieces_join_comma hne hcomma] at h
  have hkept := forall_of_filter_map_eq_self h
  intro t ht
  obtain ⟨htype, hempty⟩ := hkept t.toList (List.mem_map_of_mem ht)
  obtain ⟨htrim, hquotes⟩ := strip_eq_self_of_typeOf_eq_self htype
  obtain ⟨hfirst, hlast⟩ := Chars.strip_eq_self_iff.1 hquotes
  exact ⟨by simpa using hempty, Text.trim_eq_self_iff.2 htrim, hcomma t ht, hfirst, hlast⟩

theorem readable_of_ofKey_key {c : Combination} (h : ofKey c.key = some c) : c.Readable := by
  obtain ⟨generic, inner, htext, hparen, hblank, hgeneric, htypes⟩ := exists_of_ofKey h
  -- the generic is a part of what stands in front of the first parenthesis
  have hfree : '(' ∉ c.generic.toList := by
    rw [hgeneric]
    exact fun hmem => hparen (Chars.strip_subset isBlank generic hmem)
  have hcut := Chars.cutAt_append (b := inner ++ [')'])
    (Chars.forall_beq_eq_false_iff.2 hparen) (beq_self_eq_true '(')
  rw [← htext, toList_key, Chars.cutAt_append (Chars.forall_beq_eq_false_iff.2 hfree)
    (beq_self_eq_true '(')] at hcut
  obtain ⟨rfl, hrest⟩ := Prod.mk.inj (Option.some_inj.1 hcut)
  have hinner : (Text.join "," c.types).toList = inner := List.append_cancel_right hrest
  refine ⟨?_, Text.trim_eq_self_iff.2 hgeneric.symm, hfree, ?_⟩
  · intro hempty
    rw [hempty] at hblank
    cases hblank
  · exact isType_of_typesOf_join (by rw [hinner, htypes])

/-! ### Combinations that come back -/

/-- A combination comes back from its key exactly if its generic is not empty, has no white space at
its ends and no parenthesis that opens, and each of its types is not empty, has no comma, and neither
white space nor a quote at its ends. -/
theorem ofKey_key_eq_iff (generic : String) (types : List String) :
    ofKey (key ⟨generic, types⟩) = some ⟨generic, types⟩ ↔
      (generic ≠ "" ∧ Text.EndsOutside isBlank generic ∧ '(' ∉ generic.toList) ∧
      ∀ t ∈ types, t ≠ "" ∧ ',' ∉ t.toList ∧ Text.EndsOutside isBlank t ∧
        Text.EndsOutside isQuote t := by
  constructor
  · intro h
    have hread := readable_of_ofKey_key h
    refine ⟨⟨hread.ne_empty, Text.trim_eq_self_iff_endsOutside.1 hread.trim, hread.noParen⟩, ?_⟩
    intro t ht
    have htype := hread.types t ht
    exact ⟨htype.ne_empty, htype.noComma, Text.trim_eq_self_iff_endsOutside.1 htype.trim,
      htype.noQuoteFirst, htype.noQuoteLast⟩
  · rintro ⟨⟨hne, htrim, hparen⟩, htypes⟩
    refine ofKey_key ⟨hne, Text.trim_eq_self_iff_endsOutside.2 htrim, hparen, fun t ht => ?_⟩
    obtain ⟨hne, hcomma, htrim, hfirst, hlast⟩ := htypes t ht
    exact ⟨hne, Text.trim_eq_self_iff_endsOutside.2 htrim, hcomma, hfirst, hlast⟩

/-- A quoted type comes back without its quotes, a padded one without its white space. -/
example : ofKey (key ⟨"area", ["'Disk'", " Box "]⟩) = some ⟨"area", ["Disk", "Box"]⟩ := by
  decide

end Combination

end DocTopics
