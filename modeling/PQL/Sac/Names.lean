import PQL.Sac.Header

/-!
# Names of a SAC header

The names are cleaned without a look at where the header ends.  `NamesEnd` says that they are made
of the header alone (`isSome_sacNames_iff`); then it does not matter what lies behind it
(`sacNames_append`).
-/

namespace PQL

namespace Sac

/-! ## Names that stay in the header -/

/-- A name that begins with white space ends in the header, and so does `kcmpnm`, with a zero or
because it or `knetwk` has a blank. -/
structure NamesEnd (chars : List Byte) : Prop where
  kstnm : isspace (chars.getD 0 0) = false ∨ HasZero chars 0
  kcmpnm : isspace (chars.getD 160 0) = false ∨ HasZero chars 160
  knetwk : isspace (chars.getD 168 0) = false ∨ HasZero chars 168
  ends : HasZero chars 160 ∨ 32 ∈ (chars.drop 160).take 8 ∨ 32 ∈ (chars.drop 168).take 8

instance (chars : List Byte) : Decidable (NamesEnd chars) :=
  decidable_of_iff ((isspace (chars.getD 0 0) = false ∨ HasZero chars 0) ∧
      (isspace (chars.getD 160 0) = false ∨ HasZero chars 160) ∧
      (isspace (chars.getD 168 0) = false ∨ HasZero chars 168) ∧
      (HasZero chars 160 ∨ 32 ∈ (chars.drop 160).take 8 ∨ 32 ∈ (chars.drop 168).take 8))
    ⟨fun ⟨h₀, h₁, h₂, h₃⟩ => ⟨h₀, h₁, h₂, h₃⟩, fun ⟨h₀, h₁, h₂, h₃⟩ => ⟨h₀, h₁, h₂, h₃⟩⟩

variable {mem mem' : List Byte} {o q : ℕ}

theorem chomp_eq (o : ℕ) (mem : List Byte) :
    chomp o mem = mem ∧ 32 ∉ (mem.drop o).take 8 ∨
      ∃ i < 8, o + i < mem.length ∧ chomp o mem = mem.set (o + i) 0 := by
  unfold chomp
  cases hfind : ((mem.drop o).take 8).findIdx? (· = 32) with
  | none =>
    left
    refine ⟨rfl, fun hmem => ?_⟩
    simpa using List.findIdx?_eq_none_iff.1 hfind 32 hmem
  | some i =>
    have hlt := (List.findIdx?_eq_some_iff_getElem.1 hfind).1
    rw [List.length_take, List.length_drop] at hlt
    exact Or.inr ⟨i, by omega, by omega, rfl⟩

theorem chomp_of_not_mem (h : 32 ∉ (mem.drop o).take 8) : chomp o mem = mem := by
  unfold chomp
  rw [List.findIdx?_eq_none_iff.2 fun b hb => by simpa using fun hb' : b = 32 => h (hb' ▸ hb)]

@[simp] theorem length_chomp (o : ℕ) (mem : List Byte) : (chomp o mem).length = mem.length := by
  rcases chomp_eq o mem with ⟨h, -⟩ | ⟨i, -, -, h⟩ <;> simp [h]

theorem drop_chomp (h : o + 8 ≤ q) : (chomp o mem).drop q = mem.drop q := by
  rcases chomp_eq o mem with ⟨heq, -⟩ | ⟨i, hi, -, heq⟩
  · rw [heq]
  · rw [heq, List.drop_set_of_lt (by omega)]

theorem hasZero_chomp (h : HasZero mem q) : HasZero (chomp o mem) q := by
  rcases chomp_eq o mem with ⟨heq, -⟩ | ⟨i, -, -, heq⟩
  · rwa [heq]
  · obtain ⟨k, hk⟩ := List.mem_iff_getElem?.1 h
    rw [List.getElem?_drop] at hk
    rw [heq]
    apply (hasZero_of_getElem? (p := q + k) ?_).mono (Nat.le_add_right q k)
    rw [List.getElem?_set]
    split_ifs with hpos hlt
    · rfl
    · rw [List.getElem?_eq_none (by omega)] at hk
      exact absurd hk (by simp)
    · exact hk

/-- A blank in the name becomes its end. -/
theorem hasZero_chomp_of_blank (h : 32 ∈ (mem.drop o).take 8) : HasZero (chomp o mem) o := by
  rcases chomp_eq o mem with ⟨-, hnot⟩ | ⟨i, -, hlt, heq⟩
  · exact absurd h hnot
  · rw [heq]
    apply (hasZero_of_getElem? (p := o + i) ?_).mono (Nat.le_add_right o i)
    simp [hlt]

theorem isspace_zero : isspace 0 = false := by decide

theorem isSome_cleanName :
    (cleanName o mem).isSome ↔ isspace (mem.getD o 0) = false ∨ HasZero mem o := by
  rw [cleanName, Option.isSome_map, isSome_stripFront]

theorem length_cleanName (h : cleanName o mem = some mem') : mem'.length = mem.length := by
  obtain ⟨m, hm, rfl⟩ := Option.map_eq_some_iff.1 h
  rw [length_chomp, length_stripFront hm]

theorem hasZero_cleanName (h : cleanName o mem = some mem') (hq : HasZero mem q) :
    HasZero mem' q := by
  obtain ⟨m, hm, rfl⟩ := Option.map_eq_some_iff.1 h
  exact hasZero_chomp ((hasZero_stripFront isspace_zero hm q).2 hq)

/-- Behind the last zero only the name itself changes. -/
theorem drop_cleanName (h : cleanName o mem = some mem') (hq : ¬HasZero mem q) (hle : o + 8 ≤ q) :
    mem'.drop q = mem.drop q := by
  obtain ⟨m, hm, rfl⟩ := Option.map_eq_some_iff.1 h
  rw [drop_chomp hle, drop_stripFront isspace_zero hm hq]

theorem hasZero_congr (h : mem'.drop q = mem.drop q) : HasZero mem' q ↔ HasZero mem q := by
  rw [HasZero, HasZero, h]

theorem getD_congr (h : mem'.drop q = mem.drop q) : mem'.getD q 0 = mem.getD q 0 := by
  rw [List.getD_eq_getElem?_getD, List.getD_eq_getElem?_getD, ← Nat.add_zero q,
    ← List.getElem?_drop, ← List.getElem?_drop, h]

/-- A name without white space in front is only chomped. -/
theorem cleanName_of_not_isspace (h : isspace (mem.getD o 0) = false) :
    cleanName o mem = some (chomp o mem) := by
  rw [cleanName, stripFront, if_neg (by simpa using h)]
  rfl

theorem isSome_namesOf : (namesOf mem).isSome ↔ HasZero mem 0 ∧ HasZero mem 160 := by
  unfold namesOf cString
  by_cases h₀ : HasZero mem 0 <;> by_cases h₁ : HasZero mem 160 <;> simp [h₀, h₁]

theorem exists_cleanName (h : isspace (mem.getD o 0) = false ∨ HasZero mem o) :
    ∃ m, cleanName o mem = some m :=
  Option.isSome_iff_exists.1 (isSome_cleanName.2 h)

theorem NamesEnd.isSome {chars : List Byte} (h : NamesEnd chars) : (sacNames chars).isSome := by
  obtain ⟨m₁, h₁⟩ := exists_cleanName h.kstnm
  have hkcmpnm : isspace (m₁.getD 160 0) = false ∨ HasZero m₁ 160 := by
    by_cases hzero : HasZero chars 160
    · exact Or.inr (hasZero_cleanName h₁ hzero)
    · have hdrop := drop_cleanName h₁ hzero (by decide)
      exact Or.inl (getD_congr hdrop ▸ h.kcmpnm.resolve_right hzero)
  obtain ⟨m₂, h₂⟩ := exists_cleanName hkcmpnm
  have hdrop₂ : ¬HasZero chars 168 → m₂.drop 168 = chars.drop 168 := by
    intro hzero
    have hdrop := drop_cleanName h₁ hzero (by decide)
    exact (drop_cleanName h₂ (mt (hasZero_congr hdrop).1 hzero) (by decide)).trans hdrop
  have hknetwk : isspace (m₂.getD 168 0) = false ∨ HasZero m₂ 168 := by
    by_cases hzero : HasZero chars 168
    · exact Or.inr (hasZero_cleanName h₂ (hasZero_cleanName h₁ hzero))
    · exact Or.inl (getD_congr (hdrop₂ hzero) ▸ h.knetwk.resolve_right hzero)
  obtain ⟨m₃, h₃⟩ := exists_cleanName hknetwk
  have hend : HasZero m₃ 160 := by
    by_cases hzero : HasZero chars 160
    · exact hasZero_cleanName h₃ (hasZero_cleanName h₂ (hasZero_cleanName h₁ hzero))
    · have hdrop := drop_cleanName h₁ hzero (by decide)
      have hspace := getD_congr hdrop ▸ h.kcmpnm.resolve_right hzero
      rcases h.ends.resolve_left hzero with hblank | hblank
      · rw [cleanName_of_not_isspace hspace] at h₂
        obtain rfl := Option.some.inj h₂
        apply hasZero_cleanName h₃
        apply hasZero_chomp_of_blank
        rwa [hdrop]
      · have hzero' : ¬HasZero chars 168 := fun hc => hzero (hc.mono (by decide))
        have hspace' := getD_congr (hdrop₂ hzero') ▸ h.knetwk.resolve_right hzero'
        rw [cleanName_of_not_isspace hspace'] at h₃
        obtain rfl := Option.some.inj h₃
        have hblank' : 32 ∈ (m₂.drop 168).take 8 := by rwa [hdrop₂ hzero']
        exact (hasZero_chomp_of_blank hblank').mono (by decide)
  obtain ⟨m₄, h₄⟩ := exists_cleanName (Or.inr (hend.mono (by decide : 24 ≤ 160)))
  have hend' := hasZero_cleanName h₄ hend
  rw [sacNames, h₁, Option.bind_some, h₂, Option.bind_some, h₃, Option.bind_some, h₄,
    Option.bind_some, isSome_namesOf]
  exact ⟨hend'.mono (by decide), hend'⟩

theorem NamesEnd.of_isSome {chars : List Byte} (h : (sacNames chars).isSome) : NamesEnd chars := by
  obtain ⟨names, hnames⟩ := Option.isSome_iff_exists.1 h
  obtain ⟨m₁, h₁, hnames⟩ := Option.bind_eq_some_iff.1 hnames
  obtain ⟨m₂, h₂, hnames⟩ := Option.bind_eq_some_iff.1 hnames
  obtain ⟨m₃, h₃, hnames⟩ := Option.bind_eq_some_iff.1 hnames
  obtain ⟨m₄, h₄, hnames⟩ := Option.bind_eq_some_iff.1 hnames
  have hkstnm := isSome_cleanName.1 (Option.isSome_of_eq_some h₁)
  have hkcmpnm := isSome_cleanName.1 (Option.isSome_of_eq_some h₂)
  have hknetwk := isSome_cleanName.1 (Option.isSome_of_eq_some h₃)
  have hend := (isSome_namesOf.1 (Option.isSome_of_eq_some hnames)).2
  have hdrop₁ : ∀ {p}, 8 ≤ p → ¬HasZero chars p → m₁.drop p = chars.drop p :=
    fun hp hzero => drop_cleanName h₁ hzero (by omega)
  have hspace₁ : ¬HasZero chars 160 → isspace (chars.getD 160 0) = false := by
    intro hzero
    have hdrop := hdrop₁ (by decide) hzero
    rw [getD_congr hdrop, hasZero_congr hdrop] at hkcmpnm
    exact hkcmpnm.resolve_right hzero
  have hdrop₂ : ¬HasZero chars 168 → m₂.drop 168 = chars.drop 168 := by
    intro hzero
    have hdrop := hdrop₁ (by decide) hzero
    exact (drop_cleanName h₂ (mt (hasZero_congr hdrop).1 hzero) (by decide)).trans hdrop
  have hspace₂ : ¬HasZero chars 168 → isspace (chars.getD 168 0) = false := by
    intro hzero
    rw [getD_congr (hdrop₂ hzero), hasZero_congr (hdrop₂ hzero)] at hknetwk
    exact hknetwk.resolve_right hzero
  refine ⟨hkstnm, or_iff_not_imp_right.2 hspace₁, or_iff_not_imp_right.2 hspace₂, ?_⟩
  by_contra hnone
  obtain ⟨hzero, hblank⟩ := not_or.1 hnone
  obtain ⟨hblank₁, hblank₂⟩ := not_or.1 hblank
  have hzero' : ¬HasZero chars 168 := fun hc => hzero (hc.mono (by decide))
  -- without a blank neither name is changed, and no zero comes in
  have hm₁ := hdrop₁ (by decide) hzero
  have hm₂ : m₂ = m₁ := by
    rw [cleanName_of_not_isspace (by rw [getD_congr hm₁, hspace₁ hzero])] at h₂
    rw [← Option.some.inj h₂]
    apply chomp_of_not_mem
    rwa [hm₁]
  have hm₃ : m₃ = m₂ := by
    have hdrop := hdrop₂ hzero'
    rw [cleanName_of_not_isspace (by rw [getD_congr hdrop, hspace₂ hzero'])] at h₃
    rw [← Option.some.inj h₃]
    apply chomp_of_not_mem
    rwa [hdrop]
  have hm₁' := mt (hasZero_congr hm₁).1 hzero
  rw [hm₃, hm₂] at h₄
  exact hm₁' ((hasZero_congr (drop_cleanName h₄ hm₁' (by decide))).1 hend)

theorem isSome_sacNames_iff (chars : List Byte) : (sacNames chars).isSome ↔ NamesEnd chars :=
  ⟨NamesEnd.of_isSome, NamesEnd.isSome⟩

/-! ## What lies behind the header -/

theorem chomp_append (h : o + 8 ≤ mem.length) (behind : List Byte) :
    chomp o (mem ++ behind) = chomp o mem ++ behind := by
  have htake : ((mem ++ behind).drop o).take 8 = (mem.drop o).take 8 := by
    rw [List.drop_append_of_le_length (by omega), List.take_append_of_le_length]
    rw [List.length_drop]
    omega
  unfold chomp
  rw [htake]
  cases hfind : ((mem.drop o).take 8).findIdx? (· = 32) with
  | none => rfl
  | some i =>
    have hlt := (List.findIdx?_eq_some_iff_getElem.1 hfind).1
    rw [List.length_take, List.length_drop] at hlt
    exact List.set_append_left _ _ (by omega)

theorem cleanName_append (hlen : o + 8 ≤ mem.length) (h : cleanName o mem = some mem')
    (behind : List Byte) : cleanName o (mem ++ behind) = some (mem' ++ behind) := by
  obtain ⟨m, hm, rfl⟩ := Option.map_eq_some_iff.1 h
  have hm' := length_stripFront hm
  rw [cleanName, stripFront_append (by omega) hm, Option.map_some, chomp_append (by omega)]

theorem fieldName_append (h : o + 9 ≤ mem.length) (behind : List Byte) :
    fieldName o (mem ++ behind) = fieldName o mem := by
  unfold fieldName
  rw [List.drop_append_of_le_length (by omega)]
  apply take_takeWhile_append
  rw [List.length_drop]
  omega

theorem namesOf_append (hlen : mem.length = 192) {names : SacNames} (h : namesOf mem = some names)
    (behind : List Byte) : namesOf (mem ++ behind) = some names := by
  obtain ⟨kstnm, hkstnm, h⟩ := Option.bind_eq_some_iff.1 h
  obtain ⟨kcmpnm, hkcmpnm, rfl⟩ := Option.map_eq_some_iff.1 h
  have hfield : ∀ o, o + 9 ≤ 192 → fieldName o (mem ++ behind) = fieldName o mem :=
    fun o ho => fieldName_append (hlen ▸ ho) behind
  rw [namesOf, cString_append hkstnm, Option.bind_some, cString_append hkcmpnm, Option.map_some,
    hfield 0 (by decide), hfield 160 (by decide), hfield 168 (by decide), hfield 24 (by decide),
    List.take_append_of_le_length hlen.ge]

/-- Names that are made of the header alone stay the same. -/
theorem sacNames_append {chars : List Byte} (hlen : chars.length = 192) {names : SacNames}
    (h : sacNames chars = some names) (behind : List Byte) :
    sacNames (chars ++ behind) = some names := by
  obtain ⟨m₁, h₁, h⟩ := Option.bind_eq_some_iff.1 h
  obtain ⟨m₂, h₂, h⟩ := Option.bind_eq_some_iff.1 h
  obtain ⟨m₃, h₃, h⟩ := Option.bind_eq_some_iff.1 h
  obtain ⟨m₄, h₄, h⟩ := Option.bind_eq_some_iff.1 h
  have hlen₁ := (length_cleanName h₁).trans hlen
  have hlen₂ := (length_cleanName h₂).trans hlen₁
  have hlen₃ := (length_cleanName h₃).trans hlen₂
  have hlen₄ := (length_cleanName h₄).trans hlen₃
  rw [sacNames, cleanName_append (by omega) h₁, Option.bind_some, cleanName_append (by omega) h₂,
    Option.bind_some, cleanName_append (by omega) h₃, Option.bind_some,
    cleanName_append (by omega) h₄, Option.bind_some, namesOf_append hlen₄ h]

end Sac

end PQL
