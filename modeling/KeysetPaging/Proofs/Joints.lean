import KeysetPaging.Proofs.Keeping
import Mathlib.Data.List.Basic

/-! # Places of collections built from others

A joint looks up its collections by label, and the check of its labels makes this lookup find the
one meant. With it, the places that a collection accepts are kept by the collection, whatever it is
built from, as soon as its leaves keep theirs.
-/

namespace KeysetPaging

variable {σ α : Type}

/-! ## Labels that pass the check -/

/-- Labels without a fault are not empty and differ from each other and from those seen before. -/
theorem badLabel?_eq_none_iff {joint : Joint} : ∀ {labels seen : List String},
    badLabel? joint seen labels = none ↔
      labels.Nodup ∧ ∀ label ∈ labels, label ≠ "" ∧ label ∉ seen
  | [], seen => by simp [badLabel?]
  | label :: rest, seen => by
    rw [badLabel?, List.nodup_cons, List.forall_mem_cons]
    split_ifs with hempty hseen
    · simp [hempty]
    · simp [List.contains_iff_mem.mp hseen]
    · rw [badLabel?_eq_none_iff]
      have hfresh : label ∉ seen := by simpa using hseen
      constructor
      · rintro ⟨hnodup, hrest⟩
        exact ⟨⟨fun hmem => (hrest label hmem).2 (by simp), hnodup⟩, ⟨hempty, hfresh⟩,
          fun other hother => ⟨(hrest other hother).1, fun hmem =>
            (hrest other hother).2 (List.mem_cons_of_mem label hmem)⟩⟩
      · rintro ⟨⟨hlabel, hnodup⟩, -, hrest⟩
        refine ⟨hnodup, fun other hother => ⟨(hrest other hother).1, ?_⟩⟩
        rw [List.mem_cons, not_or]
        exact ⟨fun heq => hlabel (heq ▸ hother), (hrest other hother).2⟩

/-- Labels pass the check when there are some, none is empty, and they differ from each other. -/
theorem checkLabels_eq_ok_iff {joint : Joint} {labels : List String} :
    checkLabels joint labels = .ok () ↔ labels ≠ [] ∧ labels.Nodup ∧ "" ∉ labels := by
  have hnone : badLabel? joint [] labels = none ↔ labels.Nodup ∧ "" ∉ labels := by
    rw [badLabel?_eq_none_iff]
    simp only [List.not_mem_nil, not_false_eq_true, and_true, ne_eq]
    exact and_congr_right fun _ => ⟨fun h hmem => h "" hmem rfl, fun h _ hmem heq => h (heq ▸ hmem)⟩
  rw [checkLabels]
  split
  next fault hfault =>
    have hsome : ¬ (labels.Nodup ∧ "" ∉ labels) := by
      rw [← hnone, hfault]
      simp
    simp only [reduceCtorEq, false_iff]
    exact fun h => hsome h.2
  next hclean =>
    have hlabels := hnone.mp hclean
    cases labels <;> simp [hlabels]

/-- Labels that pass the check differ from each other. -/
theorem nodup_of_checkLabels {joint : Joint} {labels : List String}
    (h : checkLabels joint labels = .ok ()) : labels.Nodup :=
  (checkLabels_eq_ok_iff.mp h).2.1

/-! ## Rows -/

namespace Sources

theorem Each.imp {T U : String → Collection σ α → Prop} :
    ∀ {sources : Sources σ α}, sources.Each T →
      (∀ label ∈ sources.labels, ∀ c, T label c → U label c) → sources.Each U
  | .nil, _, _ => trivial
  | .cons label c rest, hT, h =>
    ⟨h label (by simp [labels]) c hT.1,
      hT.2.imp fun other hother => h other (by simp [labels, hother])⟩

theorem Each.and {T U : String → Collection σ α → Prop} :
    ∀ {sources : Sources σ α}, sources.Each T → sources.Each U →
      sources.Each fun label c => T label c ∧ U label c
  | .nil, _, _ => trivial
  | .cons _ _ _, hT, hU => ⟨⟨hT.1, hU.1⟩, hT.2.and hU.2⟩

/-- When labels differ, a row looks up each collection by its label. -/
theorem each_accepts : ∀ {sources : Sources σ α}, sources.labels.Nodup →
    sources.Each fun label c => ∀ position, sources.accepts label position = position.all c.accepts
  | .nil, _ => trivial
  | .cons label c rest, h => by
    obtain ⟨hlabel, hrest⟩ := List.nodup_cons.mp h
    refine ⟨?_, (each_accepts hrest).imp ?_⟩
    · rintro (_ | b) <;> simp [Sources.accepts]
    · intro other hother d hd position
      have hne : label ≠ other := by
        rintro rfl
        exact hlabel hother
      cases position <;> simp [Sources.accepts, hne, hd]

/-- A row accepts places only under its own labels. -/
theorem mem_labels_of_accepts {label : String} {position : Option Bookmark} :
    ∀ {sources : Sources σ α}, sources.accepts label position → label ∈ sources.labels
  | .nil, h => by simp [Sources.accepts] at h
  | .cons other c rest, h => by
    by_cases hother : other = label
    · simp [labels, hother]
    · have hrest : rest.accepts label position := by
        cases position <;> simpa [Sources.accepts, hother] using h
      exact List.mem_cons_of_mem other (mem_labels_of_accepts hrest)

end Sources

/-! ## Collections that can be built, and their leaves -/

mutual

/-- The labels of every joint in a collection pass the check. -/
def Collection.Labelled {σ : Type} : {α : Type} → Collection σ α → Prop
  | _, .leaf _ _ => True
  | _, .filter inner _ _ => inner.Labelled
  | _, .transform inner _ => inner.Labelled
  | _, .concat sources => checkLabels .concat sources.labels = .ok () ∧ sources.Labelled
  | _, .merge sources _ => checkLabels .merge sources.labels = .ok () ∧ sources.Labelled

/-- The labels of every joint in a row of collections pass the check. -/
def Sources.Labelled {σ : Type} : {α : Type} → Sources σ α → Prop
  | _, .nil => True
  | _, .cons _ collection rest => collection.Labelled ∧ rest.Labelled

end

mutual

/-- Every leaf of a collection has a property. -/
def Collection.EveryLeaf {σ : Type} (T : ∀ {α : Type}, Bookmarker α → Source σ α → Prop) :
    {α : Type} → Collection σ α → Prop
  | _, .leaf bookmarker source => T bookmarker source
  | _, .filter inner _ _ => inner.EveryLeaf T
  | _, .transform inner _ => inner.EveryLeaf T
  | _, .concat sources => sources.EveryLeaf T
  | _, .merge sources _ => sources.EveryLeaf T

/-- Every leaf of a row of collections has a property. -/
def Sources.EveryLeaf {σ : Type} (T : ∀ {α : Type}, Bookmarker α → Source σ α → Prop) :
    {α : Type} → Sources σ α → Prop
  | _, .nil => True
  | _, .cons _ collection rest => collection.EveryLeaf T ∧ rest.EveryLeaf T

end

/-- A leaf answers a request for an accepted place with accepted places. -/
def Source.KeepsAccepted (bookmarker : Bookmarker α) (source : Source σ α) : Prop :=
  (Supply.ofFill (source.fill bookmarker)).Keeps fun b => bookmarker.accepts b

/-- A row whose collections keep the places that they accept keeps the places that it accepts. -/
theorem Sources.keep_accepts {sources : Sources σ α} (hlabels : sources.labels.Nodup)
    (h : sources.Each fun _ c => c.supply.Keeps fun b => c.accepts b) :
    sources.Keep fun label position => sources.accepts label position := by
  refine (h.and (each_accepts hlabels)).imp ?_
  rintro label - c ⟨hc, haccepts⟩
  refine ⟨by simp [haccepts], ?_⟩
  simpa only [haccepts, Option.all_some] using hc

/-- At an accepted place, a row begins with the collection of that label, at a place of it. -/
theorem Sources.asked_accepts {sources : Sources σ α} {label : String} {b : Bookmark}
    (h : sources.accepts label (some b)) :
    ∀ other ∈ (if sources.labels.contains label then some label else none).or
      sources.firstLabel?, sources.accepts other (some b) := by
  intro other hother
  have hlabel : label ∈ sources.labels := mem_labels_of_accepts h
  -- An accepted label is one of the row, so the place is asked of no other collection.
  obtain rfl : label = other := by simpa [hlabel] using hother
  exact h

/-- The places in an accepted place of a merge are places of its sources. -/
theorem Merge.accepts_known {sources : Sources σ α} {direction : Direction}
    {known : List (String × Option Bookmark)}
    (h : (Collection.merge sources direction).accepts (.merge known)) :
    ∀ p ∈ known, ∀ b ∈ p.2, sources.accepts p.1 (some b) := by
  rintro ⟨label, _⟩ hp b rfl
  have hall : ∀ p ∈ known, sources.accepts p.1 p.2 := by
    simpa only [Collection.accepts, List.all_eq_true] using h
  exact hall _ hp

/-- A concatenation keeps places that are made of places which its sources keep. A place under a
label that no source has is one in the first source. -/
theorem Concat.keeps {P : Bookmark → Prop} {Q : String → Option Bookmark → Prop}
    {sources : Sources σ α} (hrow : sources.Keep Q)
    (hP : ∀ label position, Q label position → P (.concat label position))
    (hQ : ∀ label b, P (.concat label (some b)) →
      ∀ other ∈ (if sources.labels.contains label then some label else none).or
        sources.firstLabel?, Q other (some b)) :
    (Collection.concat sources).supply.Keeps P := by
  refine .ofFill fun page hpage => ?_
  rw [Collection.fill]
  split
  next label position hcurrent =>
    refine Sources.fill_keeps hP sources _ _ page hrow ?_ hpage
    rintro b rfl
    exact hQ label b (hpage.starts _ hcurrent)
  · exact Sources.fill_keeps hP sources none none page hrow (by simp) hpage

/-- A merge keeps places that are made of places which its sources keep. -/
theorem Merge.keeps {P : Bookmark → Prop} {Q : String → Option Bookmark → Prop}
    {sources : Sources σ α} (direction : Direction) (hrow : sources.Keep Q)
    (hP : ∀ ps, (∀ p ∈ ps, Q p.1 p.2) → P (.merge ps))
    (hQ : ∀ ps, P (.merge ps) → ∀ p ∈ ps, ∀ b ∈ p.2, Q p.1 (some b)) :
    (Collection.merge sources direction).supply.Keeps P := by
  refine .ofFill fun page hpage => ?_
  rw [Collection.fill]
  refine (sources.lanes_keeps _ page.perPage hrow ?_).bind ?_
  · split
    next known hcurrent => exact hQ known (hpage.starts _ hcurrent)
    · simp
  · rintro (e | lanes) hlanes
    · exact .pure ⟨hpage, rfl⟩
    · exact .pure ⟨Merge.fill_keeps hP (hlanes lanes rfl) hpage, by simp⟩

mutual

/-- **A collection keeps the places that it accepts**, if its leaves do: what it answers starts at
such a place, resumes at such a place, and marks its items with such places. -/
theorem Collection.keeps_accepts {σ : Type} : ∀ {α : Type} (c : Collection σ α), c.Labelled →
    c.EveryLeaf Source.KeepsAccepted → c.supply.Keeps fun b => c.accepts b
  | _, .leaf bookmarker source => by
    intro _ hleaf
    rw [Collection.supply_leaf]
    simpa only [Collection.accepts, Collection.EveryLeaf, Source.KeepsAccepted] using hleaf
  | _, .filter inner keep options => by
    intro hlabelled hleaf
    have hinner := inner.keeps_accepts hlabelled hleaf
    rw [Collection.supply_filter]
    simpa only [Collection.accepts] using Filter.keeps options keep hinner
  | _, .transform inner f => by
    intro hlabelled hleaf
    have hinner := inner.keeps_accepts hlabelled hleaf
    rw [Collection.supply_transform]
    simpa only [Collection.accepts] using Transform.keeps f hinner
  | _, .concat sources => by
    rintro ⟨hcheck, hlabelled⟩ hleaf
    have hrow := Sources.keep_accepts (nodup_of_checkLabels hcheck)
      (sources.keeps_accepts hlabelled hleaf)
    refine Concat.keeps hrow (fun label position h => by simpa only [Collection.accepts] using h) ?_
    intro label b h
    exact Sources.asked_accepts (by simpa only [Collection.accepts] using h)
  | _, .merge sources direction => by
    rintro ⟨hcheck, hlabelled⟩ hleaf
    have hrow := Sources.keep_accepts (nodup_of_checkLabels hcheck)
      (sources.keeps_accepts hlabelled hleaf)
    refine Merge.keeps direction hrow (fun ps h => ?_) ?_
    · simpa only [Collection.accepts, List.all_eq_true] using h
    · exact fun ps h => Merge.accepts_known h

theorem Sources.keeps_accepts {σ : Type} : ∀ {α : Type} (sources : Sources σ α), sources.Labelled →
    sources.EveryLeaf Source.KeepsAccepted →
      sources.Each fun _ c => c.supply.Keeps fun b => c.accepts b
  | _, .nil => fun _ _ => trivial
  | _, .cons _ c rest => fun hlabelled hleaf =>
    ⟨c.keeps_accepts hlabelled.1 hleaf.1, rest.keeps_accepts hlabelled.2 hleaf.2⟩

end

end KeysetPaging
