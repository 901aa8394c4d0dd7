import OnePass.Proofs.OutlineBranches

/-!
The types of a branch table. They are folded from the types of its targets and are at each position
the greatest type below all of them; where the targets differ that is `bottom`. Operands that are
compared with the folded types fit every target. Operands that are popped as these types may be
anything where the fold gave `bottom`.
-/
namespace OnePass

open List

theorem ValueType.isSubtypeOf_commonSubtype (x a b : ValueType) :
    x.isSubtypeOf (commonSubtype a b) = (x.isSubtypeOf a && x.isSubtypeOf b) := by
  cases x <;> cases a <;> cases b <;> rfl

theorem all_zip_iff {xs ys : List ValueType} {p : ValueType × ValueType → Bool} :
    (xs.zip ys).all p = true ↔
      ∀ (i : Nat) x y, xs[i]? = some x → ys[i]? = some y → p (x, y) = true := by
  rw [all_eq_true]
  constructor
  · intro h i x y hx hy
    exact h (x, y) (mem_iff_getElem?.2 ⟨i, getElem?_zip_eq_some.2 ⟨hx, hy⟩⟩)
  · rintro h ⟨x, y⟩ hmem
    obtain ⟨i, hi⟩ := mem_iff_getElem?.1 hmem
    obtain ⟨hx, hy⟩ := getElem?_zip_eq_some.1 hi
    exact h i x y hx hy

namespace TypeEnv

variable {env : TypeEnv} {targets : List Nat} {types : List ValueType} {d p d₀ : Nat}

/-- The labels can be the targets of one branch table. -/
structure Compatible (env : TypeEnv) (targets : List Nat) : Prop where
  inRange : ∀ d ∈ targets, d < env.labels.length
  length_eq : ∀ d ∈ targets, ∀ d' ∈ targets, (env.label d).length = (env.label d').length
  label_eq : env.options.features.contains .referenceTypes = false →
    ∀ d ∈ targets, ∀ d' ∈ targets, env.label d = env.label d'

/-- The types are at each position the greatest that are below those of every target. -/
structure Folded (env : TypeEnv) (targets : List Nat) (types : List ValueType) : Prop where
  inRange : ∀ d ∈ targets, d < env.labels.length
  length_eq : ∀ d ∈ targets, (env.label d).length = types.length
  label_eq : env.options.features.contains .referenceTypes = false → ∀ d ∈ targets,
    env.label d = types
  below_iff : ∀ (p : Nat) (ty : ValueType), types.reverse[p]? = some ty → ∀ x : ValueType,
    x.isSubtypeOf ty = true ↔
      ∀ d ∈ targets, ∀ want, (env.label d).reverse[p]? = some want → x.isSubtypeOf want = true

theorem Folded.compatible (h : env.Folded targets types) : env.Compatible targets where
  inRange := h.inRange
  length_eq d hd d' hd' := (h.length_eq d hd).trans (h.length_eq d' hd').symm
  label_eq href d hd d' hd' := (h.label_eq href d hd).trans (h.label_eq href d' hd').symm

variable {d : Nat}

theorem Folded.single (h : d < env.labels.length) : env.Folded [d] (env.label d) := by
  constructor
  · simpa using h
  · simp
  · simp
  · intro p ty hty x
    simp [hty]

/-- The folded types are as many as those of a target. -/
theorem Folded.exists_getElem? {want : ValueType} (h : env.Folded targets types)
    (hd : d ∈ targets) (hwant : (env.label d).reverse[p]? = some want) :
    ∃ ty, types.reverse[p]? = some ty := by
  have hlt : p < types.reverse.length := by
    rw [length_reverse, ← h.length_eq d hd, ← length_reverse]
    exact (List.getElem?_eq_some_iff.1 hwant).1
  exact ⟨_, getElem?_eq_getElem hlt⟩

theorem getElem?_labels (h : d < env.labels.length) : env.labels[d]? = some (env.label d) := by
  rw [label, getD_eq_getElem?_getD, getElem?_eq_getElem h]
  rfl

/-- One more target. -/
theorem Folded.meet {new : List ValueType} (htrusted : env.options.trusted = false)
    (h : env.Folded targets types) (hd : d < env.labels.length)
    (hmeet : env.meet types (env.label d) = some new) : env.Folded (targets ++ [d]) new := by
  simp only [TypeEnv.meet, htrusted, Bool.false_eq_true, if_false] at hmeet
  split at hmeet
  next => cases hmeet
  next hlength =>
    have hlength : (env.label d).length = types.length := by simpa using hlength
    have hrange : ∀ d' ∈ targets ++ [d], d' < env.labels.length := by
      intro d' hd'
      rcases mem_append.1 hd' with hd' | hd'
      · exact h.inRange d' hd'
      · exact mem_singleton.1 hd' ▸ hd
    split at hmeet
    next href =>
      cases hmeet
      refine ⟨hrange, ?_, fun hno => (by simp [href] at hno), ?_⟩
      · intro d' hd'
        rw [length_zipWith, hlength, Nat.min_self]
        rcases mem_append.1 hd' with hd' | hd'
        · exact h.length_eq d' hd'
        · exact mem_singleton.1 hd' ▸ hlength
      · intro p ty hty x
        rw [reverse_zipWith hlength.symm, getElem?_zipWith_eq_some] at hty
        obtain ⟨old, want, hold, hwant, rfl⟩ := hty
        rw [ValueType.isSubtypeOf_commonSubtype, Bool.and_eq_true, h.below_iff p old hold x]
        constructor
        · rintro ⟨hbefore, hlast⟩ d' hd' want' hwant'
          rcases mem_append.1 hd' with hd' | hd'
          · exact hbefore d' hd' want' hwant'
          · rw [mem_singleton.1 hd', hwant] at hwant'
            exact Option.some.inj hwant' ▸ hlast
        · intro hall
          exact ⟨fun d' hd' => hall d' (mem_append_left _ hd'), hall d (by simp) want hwant⟩
    next href =>
      split at hmeet
      next heq =>
        cases hmeet
        have hall : ∀ d' ∈ targets ++ [d], env.label d' = types := by
          intro d' hd'
          rcases mem_append.1 hd' with hd' | hd'
          · exact h.label_eq (by simpa using href) d' hd'
          · rw [mem_singleton.1 hd', heq]
        refine ⟨hrange, fun d' hd' => by rw [hall d' hd'], fun _ => hall, ?_⟩
        intro p ty hty x
        constructor
        · intro hx d' hd' want hwant
          rw [hall d' hd', hty] at hwant
          exact Option.some.inj hwant ▸ hx
        · intro hx
          exact hx d (by simp) ty (by rw [hall d (by simp), hty])
      next => cases hmeet

/-- Targets whose types do not meet are not compatible. -/
theorem Folded.not_compatible (h : env.Folded targets types) (hd₀ : d₀ ∈ targets)
    {all : List Nat} (hall : targets ⊆ all) (hd : d ∈ all)
    (htrusted : env.options.trusted = false) (hmeet : env.meet types (env.label d) = none) :
    ¬ env.Compatible all := by
  intro hc
  have hlength : (env.label d).length = types.length :=
    (hc.length_eq d hd d₀ (hall hd₀)).trans (h.length_eq d₀ hd₀)
  have hmeet : (if env.options.features.contains .referenceTypes then
      some (zipWith ValueType.commonSubtype types (env.label d))
    else if types = env.label d then some types else none) = none := by
    simpa [TypeEnv.meet, htrusted, hlength] using hmeet
  split at hmeet
  next => cases hmeet
  next href =>
    have href : env.options.features.contains .referenceTypes = false := by simpa using href
    have heq : types = env.label d :=
      (h.label_eq href d₀ hd₀).symm.trans (hc.label_eq href d₀ (hall hd₀) d hd)
    rw [if_pos heq] at hmeet
    cases hmeet

theorem Folded.foldlM (htrusted : env.options.trusted = false) (rest : List Nat)
    (h : env.Folded targets types) (hd₀ : d₀ ∈ targets) :
    match rest.foldlM env.joinLabel (some types) with
    | some new => ∃ types', new = some types' ∧ env.Folded (targets ++ rest) types'
    | none => ¬ env.Compatible (targets ++ rest) := by
  induction rest generalizing targets types with
  | nil => exact ⟨types, rfl, by rwa [append_nil]⟩
  | cons d rest ih =>
    have hmem : d ∈ targets ++ d :: rest := by simp
    rw [foldlM_cons]
    by_cases hd : d < env.labels.length
    · simp only [joinLabel, getElem?_labels hd]
      cases hmeet : env.meet types (env.label d) with
      | none => exact h.not_compatible hd₀ (subset_append_left ..) hmem htrusted hmeet
      | some new =>
        have hnew := ih (h.meet htrusted hd hmeet) (mem_append_left _ hd₀)
        simpa using hnew
    · simp only [joinLabel, getElem?_eq_none (Nat.not_lt.1 hd)]
      exact fun hc => hd (hc.inRange d hmem)

/-- The types of a branch table are folded from its targets, unless these are not compatible. -/
theorem folded_tableTypes (htrusted : env.options.trusted = false) (rest : List Nat) :
    match env.tableTypes (d :: rest) with
    | some types => env.Folded (d :: rest) types
    | none => ¬ env.Compatible (d :: rest) := by
  rw [tableTypes, foldlM_cons]
  by_cases hd : d < env.labels.length
  · have h := (Folded.single hd).foldlM htrusted rest (mem_singleton_self d)
    simp only [joinLabel, getElem?_labels hd]
    change match (·.getD []) <$> rest.foldlM env.joinLabel (some (env.label d)) with
      | some types => env.Folded (d :: rest) types
      | none => ¬ env.Compatible (d :: rest)
    cases hfold : rest.foldlM env.joinLabel (some (env.label d)) with
    | none =>
      rw [hfold] at h
      exact h
    | some new =>
      rw [hfold] at h
      obtain ⟨types, rfl, hfolded⟩ := h
      exact hfolded
  · simp only [joinLabel, getElem?_eq_none (Nat.not_lt.1 hd)]
    exact fun hc => hd (hc.inRange d (by simp))

/-- No proper type stands at the position in all the targets. -/
def Mixed (env : TypeEnv) (targets : List Nat) (position : Nat) : Prop :=
  ∀ ty, (∀ d ∈ targets, (env.label d).reverse[position]? = some ty) → ty = .bottom

/-- Where the targets have one proper type in common, the folded types have it too. -/
theorem Folded.eq_bottom_iff {ty : ValueType} (h : env.Folded targets types)
    (hty : types.reverse[p]? = some ty) : ty = .bottom ↔ env.Mixed targets p := by
  have hlt : ∀ d ∈ targets, p < (env.label d).reverse.length := by
    intro d hd
    rw [length_reverse, h.length_eq d hd, ← length_reverse]
    exact (List.getElem?_eq_some_iff.1 hty).1
  constructor
  · rintro rfl ty' hall
    have hle := (h.below_iff p _ hty ty').2 fun d hd want hwant => by
      rw [hall d hd] at hwant
      exact Option.some.inj hwant ▸ ValueType.isSubtypeOf_refl ty'
    simpa [ValueType.isSubtypeOf] using hle
  · intro hmixed
    refine Decidable.byContradiction fun hne => hne (hmixed ty fun d hd => ?_)
    have hget := getElem?_eq_getElem (hlt d hd)
    have hle := (h.below_iff p ty hty ty).1 (ValueType.isSubtypeOf_refl ty) d hd _ hget
    simp only [ValueType.isSubtypeOf, Bool.or_eq_true, beq_iff_eq, hne, or_false] at hle
    rw [hget, ← hle]

end TypeEnv

namespace Frame

variable {env : TypeEnv} {f : Frame} {targets : List Nat} {types : List ValueType} {d₀ : Nat}

section

variable (htrusted : env.options.trusted = false) (h : env.Folded targets types)
    (hd₀ : d₀ ∈ targets)
include htrusted h hd₀

/-- Operands that are compared with the folded types fit every target. -/
theorem hasOnTop_iff_of_folded : f.hasOnTop env types = true ↔
      (∀ d ∈ targets, (env.label d).length ≤ f.operands.length) ∧
      ∀ d ∈ targets, ∀ (p : Nat) (found want : ValueType), f.operands[p]? = some found →
        (env.label d).reverse[p]? = some want → found.isSubtypeOf want = true := by
  simp only [hasOnTop, htrusted, Bool.false_or, Bool.and_eq_true, decide_eq_true_eq, all_zip_iff]
  refine and_congr ⟨fun hle d hd => h.length_eq d hd ▸ hle,
    fun hle => h.length_eq d₀ hd₀ ▸ hle d₀ hd₀⟩ ?_
  constructor
  · intro hall d hd p found want hfound hwant
    obtain ⟨ty, hty⟩ := h.exists_getElem? hd hwant
    exact (h.below_iff p ty hty found).1 (hall p found ty hfound hty) d hd want hwant
  · intro hall p found ty hfound hty
    exact (h.below_iff p ty hty found).2 fun d hd want hwant => hall d hd p found want hfound hwant

/-- Operands that are popped as the folded types fit every target where these have a proper type in
common. -/
theorem takes_iff_of_folded : f.takes env types = true ↔
      (f.polymorphic = true ∨ ∀ d ∈ targets, (env.label d).length ≤ f.operands.length) ∧
      ∀ d ∈ targets, ∀ (p : Nat) (found want : ValueType), f.operands[p]? = some found →
        (env.label d).reverse[p]? = some want → found.isSubtypeOf want = true ∨
          env.Mixed targets p := by
  simp only [takes, Bool.and_eq_true, Bool.or_eq_true, decide_eq_true_eq, all_zip_iff]
  refine and_congr (or_congr Iff.rfl ⟨fun hle d hd => h.length_eq d hd ▸ hle,
    fun hle => h.length_eq d₀ hd₀ ▸ hle d₀ hd₀⟩) ?_
  have haccepts : ∀ want found, env.accepts want found = true ↔
      want = .bottom ∨ found.isSubtypeOf want = true := by
    simp [TypeEnv.accepts, htrusted]
  constructor
  · intro hall d hd p found want hfound hwant
    obtain ⟨ty, hty⟩ := h.exists_getElem? hd hwant
    rcases (haccepts _ _).1 (hall p found ty hfound hty) with hbottom | hle
    · exact .inr ((h.eq_bottom_iff hty).1 hbottom)
    · exact .inl ((h.below_iff p ty hty found).1 hle d hd want hwant)
  · intro hall p found ty hfound hty
    rw [haccepts]
    by_cases hbottom : ty = .bottom
    · exact .inl hbottom
    · refine .inr ((h.below_iff p ty hty found).2 fun d hd want hwant => ?_)
      exact (hall d hd p found want hfound hwant).resolve_right
        fun hmixed => hbottom ((h.eq_bottom_iff hty).2 hmixed)

end

end Frame
end OnePass
