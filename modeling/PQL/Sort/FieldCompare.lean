import PQL.Lib.Comparator
import PQL.Sort.Criteria

/-!
# Comparing fields

The `switch` of `listSort` over the type of a field.  A result that C does not define (a signed
overflow, a conversion out of range, a string that runs off its header) is `none`.  Two entries that
a criterion tells apart are compared by their fields (`comparesRightly_of_distinguishes`), and only
such pairs are compared rightly in both orders (`distinguishes_of_comparesRightly`).
-/

namespace PQL

/-! ## Comparing fields -/

/-- `strcmp` on the bytes from two addresses on; it may not run past the end. -/
def strcmp : List Byte → List Byte → Option ℤ
  | x :: xs, y :: ys =>
    if x ≠ y then some (x.toNat - y.toNat : ℤ) else if x = 0#8 then some 0 else strcmp xs ys
  | _, _ => none

/-- The bytes of a string in memory. -/
def CString.mem (s : CString) : List Byte := s.bytes ++ [0#8]

def dirVal (dir : Bool) : ℤ := if dir then 1 else -1

/-- A difference of `int`s with its direction. -/
def compareInts (dir : Bool) (m n : ℤ) : Option ℤ :=
  (signed (m - n)).bind fun d => signed (dirVal dir * d)

/-- A difference of numbers of `p` significant bits with its direction, as an `int`. -/
def compareReals (p : ℕ) (dir : Bool) (x y : ℚ) : Option ℤ := toInt (dirVal dir * roundTo p (x - y))

/-- The `switch` over the field type; it has no case for `MYSHORT`. -/
def FieldAt.compare {β : Type} (instOrder : CString → Option ℤ) (dir : Bool) (field : FieldAt β)
    (x y : β) : Option ℤ :=
  match field with
  | stringPtr s | string s => (strcmp (s x).mem (s y).mem).map (dirVal dir * ·)
  | chars offset _ _ mem =>
    (strcmp ((mem x).toList.drop offset) ((mem y).toList.drop offset)).map (dirVal dir * ·)
  | int read _ => compareInts dir (read x) (read y)
  | double q => compareReals 53 dir (q x) (q y)
  | float q => compareReals 24 dir (q x) (q y)
  | ptime t => (msec (t x)).bind fun m => (msec (t y)).bind fun n => compareInts dir m n
  | instSort s =>
    match instOrder (s x), instOrder (s y) with
    | none, _ => some (-1)
    | some _, none => some 1
    | some i, some j => compareInts dir i j
  | short _ => some 0

/-! ## The natural order -/

/-- The bytes of an array up to its first NUL. -/
def content (bytes : List Byte) : List Byte := bytes.takeWhile (· ≠ 0#8)

/-- A string as a key: byte by byte. -/
def stringKey (bytes : List Byte) : List ℚ := bytes.map fun b => (b.toNat : ℚ)

/-- The value of a field.  Lists are ordered from their first entry on, so that strings are compared
byte by byte and numbers as numbers. -/
def FieldAt.key {β : Type} (instOrder : CString → Option ℤ) (field : FieldAt β) (x : β) : List ℚ :=
  match field with
  | stringPtr s | string s => stringKey (s x).bytes
  | chars offset size _ mem => stringKey (content (((mem x).toList.drop offset).take size))
  | int _ field => [(field x : ℚ)]
  | double q | float q => [q x]
  | short n => [(n x : ℚ)]
  | ptime t => [(t x).instant]
  | instSort s => ((instOrder (s x)).map fun i => (i : ℚ)).toList

/-- The field of the criterion comes first, or last when the direction is descending. -/
def precedes (dir : Bool) (a b : List ℚ) : Prop := if dir then a < b else b < a

/-- The pairs that a criterion orders by their field. -/
def FieldAt.Distinguishes {β : Type} (instOrder : CString → Option ℤ) (field : FieldAt β)
    (x y : β) :
    Prop :=
  match field with
  | stringPtr _ | string _ => True
  | chars offset size _ mem =>
    let array b := ((mem b).toList.drop offset).take size
    let behind b := (mem b).toList.drop (offset + size)
    content (array x) ≠ content (array y) ∨ 0#8 ∈ array x ∨
      strcmp (behind x) (behind y) = some 0
  | int read field =>
    |read x - read y| < 2 ^ 31 ∧ (read x < read y ↔ field x < field y) ∧
      (read y < read x ↔ field y < field x)
  | double q => q x = q y ∨ 1 ≤ |roundTo 53 (q x - q y)| ∧ |roundTo 53 (q x - q y)| < 2 ^ 31
  | float q => q x = q y ∨ 1 ≤ |roundTo 24 (q x - q y)| ∧ |roundTo 24 (q x - q y)| < 2 ^ 31
  | short n => n x = n y
  | ptime t =>
    ∃ m ∈ msec (t x), ∃ n ∈ msec (t y), |m - n| < 2 ^ 31 ∧
      (m = n → (t x).instant = (t y).instant)
  | instSort s => ∃ i ∈ instOrder (s x), ∃ j ∈ instOrder (s y), |i - j| < 2 ^ 31

/-! ## Signs -/

/-- `d` has the sign of the order of two keys. -/
def SignOf (d : ℤ) (k l : List ℚ) : Prop := (d < 0 ↔ k < l) ∧ (0 < d ↔ l < k)

/-- A result that has the sign of the order of two keys in a direction. -/
def Agree (dir : Bool) (o : Option ℤ) (k l : List ℚ) : Prop :=
  ∃ r ∈ o, (r < 0 ↔ precedes dir k l) ∧ (0 < r ↔ precedes dir l k)

theorem agree_some_iff (dir : Bool) (d : ℤ) (k l : List ℚ) :
    Agree dir (some (dirVal dir * d)) k l ↔ SignOf d k l := by
  unfold Agree SignOf precedes dirVal
  simp only [Option.mem_some_iff, exists_eq_left']
  cases dir with
  | true => simp only [if_true, one_mul]
  | false =>
    simp only [Bool.false_eq_true, if_false, neg_one_mul, Left.neg_neg_iff, Left.neg_pos_iff]
    exact and_comm

theorem not_precedes_self (dir : Bool) (k : List ℚ) : ¬ precedes dir k k := by
  unfold precedes
  split_ifs <;> exact lt_irrefl k

/-- Entries with one key must be compared as equal. -/
theorem agree_self_iff (dir : Bool) (o : Option ℤ) (k : List ℚ) : Agree dir o k k ↔ o = some 0 := by
  constructor
  · rintro ⟨r, hr, hneg, hpos⟩
    rw [iff_false_right (not_precedes_self dir k)] at hneg hpos
    rw [Option.mem_def.1 hr, show r = 0 by omega]
  · rintro rfl
    refine ⟨0, rfl, ?_, ?_⟩ <;> simp [not_precedes_self]

theorem singleton_lt_singleton {a b : ℚ} : [a] < [b] ↔ a < b := by
  rw [List.cons_lt_cons_iff]
  simp

/-! ### Numbers -/

theorem abs_lt_iff_inIntRange {n : ℤ} : |n| < 2 ^ 31 ↔ InIntRange n ∧ InIntRange (-n) := by
  unfold InIntRange
  rw [abs_lt]
  omega

theorem inIntRange_dirVal {d : ℤ} (dir : Bool) (h : |d| < 2 ^ 31) :
    InIntRange (dirVal dir * d) := by
  obtain ⟨hpos, hneg⟩ := abs_lt_iff_inIntRange.1 h
  cases dir with
  | true => rwa [dirVal, if_pos rfl, one_mul]
  | false => rwa [dirVal, if_neg Bool.false_ne_true, neg_one_mul]

theorem agree_compareInts {m n : ℤ} {k l : List ℚ} (dir : Bool) (hlt : |m - n| < 2 ^ 31)
    (hsign : SignOf (m - n) k l) : Agree dir (compareInts dir m n) k l := by
  have hresult : compareInts dir m n = some (dirVal dir * (m - n)) := by
    rw [compareInts, signed_eq_some.2 ⟨rfl, (abs_lt_iff_inIntRange.1 hlt).1⟩]
    exact signed_eq_some.2 ⟨rfl, inIntRange_dirVal dir hlt⟩
  rw [hresult]
  exact (agree_some_iff dir _ k l).2 hsign

theorem signOf_of_agree_compareInts {dir : Bool} {m n : ℤ} {k l : List ℚ}
    (h : Agree dir (compareInts dir m n) k l) : InIntRange (m - n) ∧ SignOf (m - n) k l := by
  obtain ⟨r, hr, hsign⟩ := h
  obtain ⟨d, hd, hr⟩ := Option.bind_eq_some_iff.1 hr
  obtain ⟨rfl, hrange⟩ := signed_eq_some.1 hd
  obtain ⟨rfl, -⟩ := signed_eq_some.1 hr
  exact ⟨hrange, (agree_some_iff dir _ k l).1 ⟨_, rfl, hsign⟩⟩

theorem of_agree_compareInts {dir : Bool} {m n : ℤ} {k l : List ℚ}
    (h : Agree dir (compareInts dir m n) k l) (h' : Agree dir (compareInts dir n m) l k) :
    |m - n| < 2 ^ 31 ∧ SignOf (m - n) k l := by
  obtain ⟨hrange, hsign⟩ := signOf_of_agree_compareInts h
  obtain ⟨hrange', -⟩ := signOf_of_agree_compareInts h'
  rw [← neg_sub] at hrange'
  exact ⟨abs_lt_iff_inIntRange.2 ⟨hrange, hrange'⟩, hsign⟩

theorem signOf_sub_iff {m n : ℤ} {k l : List ℚ} :
    SignOf (m - n) k l ↔ (m < n ↔ k < l) ∧ (n < m ↔ l < k) := by
  rw [SignOf, sub_neg, sub_pos]

theorem signOf_zero_iff {x y : ℚ} : SignOf 0 [x] [y] ↔ x = y := by
  rw [SignOf, singleton_lt_singleton, singleton_lt_singleton]
  constructor
  · rintro ⟨hlt, hgt⟩
    exact le_antisymm (not_lt.1 (mt hgt.2 (lt_irrefl 0))) (not_lt.1 (mt hlt.2 (lt_irrefl 0)))
  · rintro rfl
    simp

theorem signOf_int {m n : ℤ} {x y : ℚ} :
    SignOf (m - n) [x] [y] ↔ (m < n ↔ x < y) ∧ (n < m ↔ y < x) := by
  rw [signOf_sub_iff, singleton_lt_singleton, singleton_lt_singleton]

theorem truncate_dirVal (dir : Bool) (q : ℚ) :
    truncate (dirVal dir * q) = dirVal dir * truncate q := by
  cases dir with
  | true => simp [dirVal]
  | false => simp [dirVal, truncate_neg]

/-- A rounded difference that is not truncated to zero has the sign of the exact one. -/
theorem signOf_truncate_roundTo {p : ℕ} {x y : ℚ} (h : x = y ∨ 1 ≤ |roundTo p (x - y)|) :
    SignOf (truncate (roundTo p (x - y))) [x] [y] := by
  rw [SignOf, singleton_lt_singleton, singleton_lt_singleton, truncate_neg_iff, truncate_pos_iff]
  rcases h with rfl | h
  · rw [sub_self, roundTo_zero]
    norm_num
  · rw [le_abs'] at h
    have hnonneg : y ≤ x → 0 ≤ roundTo p (x - y) := fun hle => roundTo_nonneg p (sub_nonneg.2 hle)
    have hnonpos : x ≤ y → roundTo p (x - y) ≤ 0 := fun hle => roundTo_nonpos p (sub_nonpos.2 hle)
    rcases h with h | h
    · have hlt : x < y := by
        by_contra hle
        linarith [hnonneg (not_lt.1 hle)]
      refine ⟨iff_of_true h hlt, iff_of_false ?_ hlt.not_gt⟩
      linarith
    · have hlt : y < x := by
        by_contra hle
        linarith [hnonpos (not_lt.1 hle)]
      refine ⟨iff_of_false ?_ hlt.not_gt, iff_of_true h hlt⟩
      linarith

theorem abs_truncate_lt {q : ℚ} : |truncate q| < 2 ^ 31 ↔ |q| < 2 ^ 31 := by
  rw [abs_truncate, Int.floor_lt]
  norm_num

theorem agree_compareReals {p : ℕ} {x y : ℚ} (dir : Bool)
    (h : x = y ∨ 1 ≤ |roundTo p (x - y)| ∧ |roundTo p (x - y)| < 2 ^ 31) :
    Agree dir (compareReals p dir x y) [x] [y] := by
  have hlt : |roundTo p (x - y)| < 2 ^ 31 := by
    rcases h with rfl | h
    · rw [sub_self, roundTo_zero, abs_zero]
      norm_num
    · exact h.2
  have hresult : compareReals p dir x y = some (dirVal dir * truncate (roundTo p (x - y))) := by
    rw [compareReals, toInt_eq_some, truncate_dirVal]
    exact ⟨rfl, inIntRange_dirVal dir (abs_truncate_lt.2 hlt)⟩
  rw [hresult, agree_some_iff]
  exact signOf_truncate_roundTo (h.imp_right And.left)

theorem of_agree_compareReals {p : ℕ} {dir : Bool} {x y : ℚ}
    (h : Agree dir (compareReals p dir x y) [x] [y])
    (h' : Agree dir (compareReals p dir y x) [y] [x]) :
    x = y ∨ 1 ≤ |roundTo p (x - y)| ∧ |roundTo p (x - y)| < 2 ^ 31 := by
  obtain ⟨r, hr, hsign⟩ := h
  obtain ⟨r', hr', -⟩ := h'
  obtain ⟨rfl, hrange⟩ := toInt_eq_some.1 hr
  obtain ⟨-, hrange'⟩ := toInt_eq_some.1 hr'
  rw [← neg_sub, roundTo_neg, mul_neg, truncate_neg] at hrange'
  have hlt : |dirVal dir * truncate (roundTo p (x - y))| < 2 ^ 31 := by
    rw [← truncate_dirVal]
    exact abs_lt_iff_inIntRange.2 ⟨hrange, hrange'⟩
  have habs : |dirVal dir| = 1 := by cases dir <;> rfl
  rw [abs_mul, habs, one_mul, abs_truncate_lt] at hlt
  rw [truncate_dirVal] at hsign
  obtain ⟨hneg, hpos⟩ := (agree_some_iff dir _ _ _).1 ⟨_, rfl, hsign⟩
  rw [singleton_lt_singleton, truncate_neg_iff] at hneg
  rw [singleton_lt_singleton, truncate_pos_iff] at hpos
  rcases lt_trichotomy x y with hxy | hxy | hxy
  · exact .inr ⟨le_abs'.2 (.inl (hneg.2 hxy)), hlt⟩
  · exact .inl hxy
  · exact .inr ⟨le_abs'.2 (.inr (hpos.2 hxy)), hlt⟩

/-! ### Strings -/

theorem toNat_pos_of_ne_nul {a : Byte} (h : a ≠ 0#8) : 0 < a.toNat :=
  Nat.pos_of_ne_zero fun hzero => h (BitVec.eq_of_toNat_eq hzero)

theorem stringKey_cons_lt {a b : Byte} {s t : List Byte} (h : a ≠ b) :
    stringKey (a :: s) < stringKey (b :: t) ↔ a.toNat < b.toNat := by
  have hne : ((a.toNat : ℕ) : ℚ) ≠ b.toNat :=
    Nat.cast_injective.ne fun heq => h (BitVec.eq_of_toNat_eq heq)
  unfold stringKey
  rw [List.map_cons, List.map_cons, List.cons_lt_cons_iff, Nat.cast_lt]
  simp [hne]

theorem stringKey_cons_lt_self {a : Byte} {s t : List Byte} :
    stringKey (a :: s) < stringKey (a :: t) ↔ stringKey s < stringKey t := by
  unfold stringKey
  rw [List.map_cons, List.map_cons, List.cons_lt_cons_iff]
  simp

theorem signOf_head {a b : Byte} {s t : List Byte} (h : a ≠ b) :
    SignOf (a.toNat - b.toNat : ℤ) (stringKey (a :: s)) (stringKey (b :: t)) := by
  rw [signOf_sub_iff, stringKey_cons_lt h, stringKey_cons_lt h.symm, Nat.cast_lt, Nat.cast_lt]
  exact ⟨Iff.rfl, Iff.rfl⟩

theorem signOf_nul_head {a : Byte} (h : a ≠ 0#8) {s : List Byte} :
    SignOf ((0#8).toNat - a.toNat : ℤ) (stringKey []) (stringKey (a :: s)) := by
  have hpos : 0 < a.toNat := toNat_pos_of_ne_nul h
  simp only [SignOf, stringKey, List.map_nil, List.map_cons, List.nil_lt_cons, List.not_lt_nil,
    iff_true, iff_false, BitVec.toNat_ofNat]
  omega

theorem signOf_head_nul {a : Byte} (h : a ≠ 0#8) {s : List Byte} :
    SignOf (a.toNat - (0#8).toNat : ℤ) (stringKey (a :: s)) (stringKey []) := by
  have hpos : 0 < a.toNat := toNat_pos_of_ne_nul h
  simp only [SignOf, stringKey, List.map_nil, List.map_cons, List.nil_lt_cons, List.not_lt_nil,
    iff_true, iff_false, BitVec.toNat_ofNat]
  omega

theorem strcmp_cons_of_ne {a b : Byte} {s t : List Byte} (h : a ≠ b) :
    strcmp (a :: s) (b :: t) = some (a.toNat - b.toNat : ℤ) := by
  rw [strcmp, if_pos h]

theorem strcmp_cons_self {a : Byte} {s t : List Byte} (h : a ≠ 0#8) :
    strcmp (a :: s) (a :: t) = strcmp s t := by
  rw [strcmp, if_neg (not_not.2 rfl), if_neg h]

theorem strcmp_nul (s t : List Byte) : strcmp (0#8 :: s) (0#8 :: t) = some 0 := by
  rw [strcmp, if_neg (not_not.2 rfl), if_pos rfl]

/-- `strcmp` orders strings that end with a NUL byte by byte. -/
theorem strcmp_mem {s t : List Byte} (hs : 0#8 ∉ s) (ht : 0#8 ∉ t) :
    ∃ d, strcmp (s ++ [0#8]) (t ++ [0#8]) = some d ∧ SignOf d (stringKey s) (stringKey t) := by
  induction s generalizing t with
  | nil =>
    cases t with
    | nil => exact ⟨0, strcmp_nul _ _, by simp [SignOf]⟩
    | cons b t =>
      rw [List.mem_cons, not_or] at ht
      exact ⟨_, strcmp_cons_of_ne ht.1, signOf_nul_head (Ne.symm ht.1)⟩
  | cons a s ih =>
    rw [List.mem_cons, not_or] at hs
    cases t with
    | nil => exact ⟨_, strcmp_cons_of_ne (Ne.symm hs.1), signOf_head_nul (Ne.symm hs.1)⟩
    | cons b t =>
      rw [List.mem_cons, not_or] at ht
      by_cases hab : a = b
      · subst hab
        obtain ⟨d, hd, hsign⟩ := ih hs.2 ht.2
        refine ⟨d, (strcmp_cons_self (Ne.symm hs.1)).trans hd, ?_⟩
        rwa [SignOf, stringKey_cons_lt_self, stringKey_cons_lt_self]
      · exact ⟨_, strcmp_cons_of_ne hab, signOf_head hab⟩

theorem content_cons_nul (s : List Byte) : content (0#8 :: s) = [] := rfl

theorem content_cons {a : Byte} (h : a ≠ 0#8) (s : List Byte) :
    content (a :: s) = a :: content s := by
  rw [content, List.takeWhile_cons_of_pos (by simpa using h)]
  rfl

theorem content_cons_ne {a b : Byte} (h : a ≠ b) {s t : List Byte} :
    content (a :: s) ≠ content (b :: t) := by
  by_cases ha : a = 0#8
  · subst ha
    rw [content_cons_nul, content_cons (Ne.symm h)]
    exact nofun
  · rw [content_cons ha]
    by_cases hb : b = 0#8
    · rw [hb, content_cons_nul]
      exact nofun
    · rw [content_cons hb]
      exact fun heq => h (List.cons.inj heq).1

theorem signOf_content_head {a b : Byte} (h : a ≠ b) {s t : List Byte} :
    SignOf (a.toNat - b.toNat : ℤ)
      (stringKey (content (a :: s))) (stringKey (content (b :: t))) := by
  by_cases ha : a = 0#8
  · subst ha
    rw [content_cons_nul, content_cons (Ne.symm h)]
    exact signOf_nul_head (Ne.symm h)
  · rw [content_cons ha]
    by_cases hb : b = 0#8
    · subst hb
      rw [content_cons_nul]
      exact signOf_head_nul h
    · rw [content_cons hb]
      exact signOf_head h

/-- What `strcmp` makes of two arrays of one size with the bytes behind them. -/
structure ComparesArrays (a b u v : List Byte) : Prop where
  differ : content a ≠ content b →
    ∃ d, strcmp (a ++ u) (b ++ v) = some d ∧
      SignOf d (stringKey (content a)) (stringKey (content b))
  nul : content a = content b → 0#8 ∈ a → strcmp (a ++ u) (b ++ v) = some 0
  behind : content a = content b → 0#8 ∉ a → strcmp (a ++ u) (b ++ v) = strcmp u v

theorem comparesArrays {a b : List Byte} (hlen : a.length = b.length) (u v : List Byte) :
    ComparesArrays a b u v := by
  induction a generalizing b with
  | nil =>
    obtain rfl := List.eq_nil_of_length_eq_zero hlen.symm
    exact ⟨fun h => absurd rfl h, fun _ => nofun, fun _ _ => rfl⟩
  | cons x a ih =>
    cases b with
    | nil => exact nomatch hlen
    | cons y b =>
      by_cases hxy : x = y
      · subst hxy
        by_cases hx : x = 0#8
        · subst hx
          refine ⟨fun h => absurd rfl h, fun _ _ => strcmp_nul _ _, fun _ h => ?_⟩
          exact absurd List.mem_cons_self h
        · obtain ⟨hdiffer, hnul, hbehind⟩ := ih (Nat.succ.inj hlen)
          have hcmp : strcmp (x :: a ++ u) (x :: b ++ v) = strcmp (a ++ u) (b ++ v) :=
            strcmp_cons_self hx
          have hmem : 0#8 ∈ x :: a ↔ 0#8 ∈ a := by
            rw [List.mem_cons, or_iff_right (Ne.symm hx)]
          refine ⟨?_, ?_, ?_⟩ <;> rw [hcmp, content_cons hx, content_cons hx]
          · intro hne
            obtain ⟨d, hd, hsign⟩ := hdiffer (mt (congrArg (x :: ·)) hne)
            refine ⟨d, hd, ?_⟩
            rwa [SignOf, stringKey_cons_lt_self, stringKey_cons_lt_self]
          · rw [List.cons_inj_right, hmem]
            exact hnul
          · rw [List.cons_inj_right, hmem]
            exact hbehind
      · refine ⟨fun _ => ⟨_, strcmp_cons_of_ne hxy, signOf_content_head hxy⟩, ?_, ?_⟩ <;>
          exact fun h => absurd h (content_cons_ne hxy)

/-! ## Fields -/

theorem agree_strings (dir : Bool) (s t : CString) :
    Agree dir ((strcmp s.mem t.mem).map (dirVal dir * ·))
      (stringKey s.bytes) (stringKey t.bytes) := by
  obtain ⟨d, hd, hsign⟩ := strcmp_mem s.noNul t.noNul
  rw [CString.mem, CString.mem, hd]
  exact (agree_some_iff dir d _ _).2 hsign

/-- Arrays of one size with the bytes behind them. -/
theorem agree_arrays_iff {a b : List Byte} (dir : Bool) (hlen : a.length = b.length)
    (u v : List Byte) :
    Agree dir ((strcmp (a ++ u) (b ++ v)).map (dirVal dir * ·)) (stringKey (content a))
        (stringKey (content b)) ↔
      content a ≠ content b ∨ 0#8 ∈ a ∨ strcmp u v = some 0 := by
  obtain ⟨hdiffer, hnul, hbehind⟩ := comparesArrays hlen u v
  have hzero : (some 0 : Option ℤ).map (dirVal dir * ·) = some 0 := by simp
  by_cases hcontent : content a = content b
  · rw [or_iff_right (not_not.2 hcontent), hcontent, agree_self_iff]
    by_cases hmem : 0#8 ∈ a
    · rw [hnul hcontent hmem]
      exact iff_of_true hzero (.inl hmem)
    · rw [hbehind hcontent hmem, or_iff_right hmem]
      have hne : dirVal dir ≠ 0 := by cases dir <;> decide
      simp [Option.map_eq_some_iff, hne]
  · obtain ⟨d, hd, hsign⟩ := hdiffer hcontent
    rw [hd]
    exact iff_of_true ((agree_some_iff dir d _ _).2 hsign) (.inl hcontent)

theorem drop_eq_array_append (l : List Byte) (offset size : ℕ) :
    l.drop offset = (l.drop offset).take size ++ l.drop (offset + size) := by
  rw [← List.drop_drop, List.take_append_drop]

theorem length_array {n : ℕ} (mem : List.Vector Byte n) {offset size : ℕ}
    (fits : offset + size ≤ n) : ((mem.toList.drop offset).take size).length = size := by
  rw [List.length_take, List.length_drop, List.Vector.toList_length]
  omega

variable {β : Type} {instOrder : CString → Option ℤ} {dir : Bool} {field : FieldAt β} {x y : β}

/-- A comparison is the order of two fields in a direction. -/
def FieldAt.ComparesRightly (instOrder : CString → Option ℤ) (dir : Bool) (field : FieldAt β)
    (x y : β) : Prop :=
  Agree dir (field.compare instOrder dir x y) (field.key instOrder x) (field.key instOrder y)

theorem agree_chars_iff {n : ℕ} {offset size : ℕ} (fits : offset + size ≤ n)
    (mem : β → List.Vector Byte n) :
    (FieldAt.chars offset size fits mem).ComparesRightly instOrder dir x y ↔
      (FieldAt.chars offset size fits mem).Distinguishes instOrder x y := by
  have hlen := (length_array (mem x) fits).trans (length_array (mem y) fits).symm
  have hiff := agree_arrays_iff dir hlen ((mem x).toList.drop (offset + size))
    ((mem y).toList.drop (offset + size))
  rwa [← drop_eq_array_append, ← drop_eq_array_append] at hiff

/-- Milliseconds follow the instants, but two instants may fall on one millisecond. -/
theorem signOf_msec_iff {s t : PTime} {m n : ℤ} (hs : msec s = some m) (ht : msec t = some n) :
    SignOf (m - n) [s.instant] [t.instant] ↔ (m = n → s.instant = t.instant) := by
  rw [signOf_int]
  constructor
  · rintro ⟨hlt, hgt⟩ rfl
    exact le_antisymm (not_lt.1 (mt hgt.2 (lt_irrefl m))) (not_lt.1 (mt hlt.2 (lt_irrefl m)))
  · intro hsame
    have hle : s.instant ≤ t.instant → m ≤ n := msec_mono hs ht
    have hge : t.instant ≤ s.instant → n ≤ m := msec_mono ht hs
    refine ⟨⟨fun h => ?_, fun h => ?_⟩, ⟨fun h => ?_, fun h => ?_⟩⟩
    · exact not_le.1 fun hinstant => h.not_ge (hge hinstant)
    · exact (hle h.le).lt_of_ne fun heq => h.ne (hsame heq)
    · exact not_le.1 fun hinstant => h.not_ge (hle hinstant)
    · exact (hge h.le).lt_of_ne fun heq => h.ne (hsame heq.symm).symm

/-- Entries that the criterion can tell apart are in the order of their fields. -/
theorem FieldAt.comparesRightly_of_distinguishes (h : field.Distinguishes instOrder x y) :
    field.ComparesRightly instOrder dir x y := by
  cases field with
  | stringPtr s => exact agree_strings dir (s x) (s y)
  | string s => exact agree_strings dir (s x) (s y)
  | chars offset size fits mem => exact (agree_chars_iff fits mem).2 h
  | int read value =>
    obtain ⟨hlt, hsign⟩ := h
    apply agree_compareInts dir hlt
    exact signOf_int.2 (by simpa only [Int.cast_lt] using hsign)
  | double q => exact agree_compareReals dir h
  | float q => exact agree_compareReals dir h
  | short n =>
    have heq : n x = n y := h
    simp only [ComparesRightly, FieldAt.compare, FieldAt.key, heq]
    exact (agree_self_iff dir _ _).2 rfl
  | ptime t =>
    obtain ⟨m, hm, n, hn, hlt, hsame⟩ := h
    simp only [ComparesRightly, FieldAt.compare, FieldAt.key, Option.mem_def.1 hm,
      Option.mem_def.1 hn]
    apply agree_compareInts dir hlt
    exact (signOf_msec_iff hm hn).2 hsame
  | instSort s =>
    obtain ⟨i, hi, j, hj, hlt⟩ := h
    simp only [ComparesRightly, FieldAt.compare, FieldAt.key, Option.mem_def.1 hi,
      Option.mem_def.1 hj]
    apply agree_compareInts dir hlt
    exact signOf_int.2 ⟨Int.cast_lt.symm, Int.cast_lt.symm⟩

/-- Where two entries compare rightly with themselves and each other, the criterion can tell them
apart. -/
theorem FieldAt.distinguishes_of_comparesRightly (hx : field.ComparesRightly instOrder dir x x)
    (hy : field.ComparesRightly instOrder dir y y) (hxy : field.ComparesRightly instOrder dir x y)
    (hyx : field.ComparesRightly instOrder dir y x) : field.Distinguishes instOrder x y := by
  cases field with
  | stringPtr s => trivial
  | string s => trivial
  | chars offset size fits mem => exact (agree_chars_iff fits mem).1 hxy
  | int read value =>
    obtain ⟨hlt, hsign⟩ := of_agree_compareInts hxy hyx
    refine ⟨hlt, ?_⟩
    simpa only [Int.cast_lt] using signOf_int.1 hsign
  | double q => exact of_agree_compareReals hxy hyx
  | float q => exact of_agree_compareReals hxy hyx
  | short n =>
    have hzero : Agree dir (some (dirVal dir * 0)) [(n x : ℚ)] [(n y : ℚ)] := by
      rw [mul_zero]
      exact hxy
    have hsign := (agree_some_iff dir 0 _ _).1 hzero
    show n x = n y
    exact Int.cast_injective (signOf_zero_iff.1 hsign)
  | ptime t =>
    obtain ⟨r, hr, -⟩ := id hxy
    obtain ⟨m, hm, hr⟩ := Option.bind_eq_some_iff.1 hr
    obtain ⟨n, hn, -⟩ := Option.bind_eq_some_iff.1 hr
    simp only [ComparesRightly, FieldAt.compare, FieldAt.key, hm, hn] at hxy hyx
    obtain ⟨hlt, hsign⟩ := of_agree_compareInts hxy hyx
    exact ⟨m, hm, n, hn, hlt, (signOf_msec_iff hm hn).1 hsign⟩
  | instSort s =>
    have hentry : ∀ z, (FieldAt.instSort s).ComparesRightly instOrder dir z z →
        ∃ i, instOrder (s z) = some i := by
      intro z hz
      cases hi : instOrder (s z) with
      | some i => exact ⟨i, rfl⟩
      | none =>
        have hresult := (agree_self_iff dir _ _).1 hz
        simp only [FieldAt.compare, hi] at hresult
        exact absurd hresult (by decide)
    obtain ⟨i, hi⟩ := hentry x hx
    obtain ⟨j, hj⟩ := hentry y hy
    simp only [ComparesRightly, FieldAt.compare, FieldAt.key, hi, hj] at hxy hyx
    exact ⟨i, hi, j, hj, (of_agree_compareInts hxy hyx).1⟩

end PQL
