import PQL.Lib.Rounding

/-!
# Numerals and separators

Numbers in decimal digits, as `printf` writes and `scanf` reads them, over characters of eight bits.
A scan skips white space, takes the longest numeral and leaves the rest; printing a number and
scanning it gives the number back, whatever follows it that is not a digit (`scanInt_printInt`), and
the number rounded to six decimals if it is printed so (`scanFixed_printFixed`).
Pieces that do not have the separator in them are found again by splitting
(`splitOn_flatMap_concat`, `splitOn_flatMap_cons`).
-/

namespace PQL

/-- A character of a C string. -/
abbrev CChar := BitVec 8

/-- The characters of a literal. -/
def ascii (s : String) : List CChar := s.toList.map fun c => BitVec.ofNat 8 c.toNat

def minus : CChar := 45

def plus : CChar := 43

def point : CChar := 46

def blank : CChar := 32

/-- `isspace`. -/
def isSpace (c : CChar) : Bool := c = blank ∨ (9 ≤ c.toNat ∧ c.toNat ≤ 13)

/-- `isdigit`. -/
def isDigit (c : CChar) : Bool := 48 ≤ c.toNat ∧ c.toNat ≤ 57

/-! ## Digits -/

def digit (d : ℕ) : CChar := BitVec.ofNat 8 (48 + d)

theorem isDigit_digit {d : ℕ} (hd : d < 10) : isDigit (digit d) = true := by
  rw [isDigit, digit, BitVec.toNat_ofNat, Nat.mod_eq_of_lt (by omega)]
  simp
  omega

theorem digit_toNat {d : ℕ} (hd : d < 10) : (digit d).toNat - 48 = d := by
  rw [digit, BitVec.toNat_ofNat, Nat.mod_eq_of_lt (by omega)]
  omega

/-- The digits of a number, without leading zeros. -/
def decimal (n : ℕ) : List CChar :=
  if n = 0 then [digit 0] else (Nat.digits 10 n).reverse.map digit

/-- The number that digits stand for. -/
def digitsValue (ds : List CChar) : ℕ := ds.foldl (fun n d => 10 * n + (d.toNat - 48)) 0

theorem digitsValue_map_digit {ds : List ℕ} (h : ∀ d ∈ ds, d < 10) :
    digitsValue (ds.reverse.map digit) = Nat.ofDigits 10 ds := by
  rw [digitsValue, List.foldl_map, List.foldl_reverse, Nat.ofDigits_eq_foldr]
  induction ds with
  | nil => rfl
  | cons d ds ih =>
    rw [List.foldr_cons, List.foldr_cons, ih fun x hx => h x (List.mem_cons_of_mem d hx),
      digit_toNat (h d List.mem_cons_self)]
    simp only [Nat.cast_id]
    omega

theorem digitsValue_decimal (n : ℕ) : digitsValue (decimal n) = n := by
  unfold decimal
  split_ifs with hn
  · rw [hn]
    rfl
  · rw [digitsValue_map_digit fun d hd => Nat.digits_lt_base (by norm_num) hd, Nat.ofDigits_digits]

theorem isDigit_of_mem_decimal {n : ℕ} {c : CChar} (hc : c ∈ decimal n) : isDigit c = true := by
  unfold decimal at hc
  split_ifs at hc with hn
  · rw [List.mem_singleton.1 hc]
    exact isDigit_digit (by norm_num)
  · obtain ⟨d, hd, rfl⟩ := List.mem_map.1 hc
    exact isDigit_digit (Nat.digits_lt_base (by norm_num) (List.mem_reverse.1 hd))

theorem decimal_ne_nil (n : ℕ) : decimal n ≠ [] := by
  unfold decimal
  split_ifs with hn
  · exact List.cons_ne_nil _ _
  · simpa [Nat.digits_eq_nil_iff_eq_zero] using hn

theorem length_decimal_le_iff {n k : ℕ} (hk : 0 < k) : (decimal n).length ≤ k ↔ n < 10 ^ k := by
  unfold decimal
  split_ifs with hn
  · rw [hn]
    exact iff_of_true hk (Nat.pow_pos (by norm_num))
  · rw [List.length_map, List.length_reverse]
    exact Nat.digits_length_le_iff (by norm_num) n

/-! ## Integers -/

/-- `%d`. -/
def printInt (z : ℤ) : List CChar :=
  if z < 0 then minus :: decimal z.natAbs else decimal z.natAbs

/-- The sign in front of a numeral and what follows it. -/
def scanSign : List CChar → ℤ × List CChar
  | c :: s => if c = minus then (-1, s) else if c = plus then (1, s) else (1, c :: s)
  | [] => (1, [])

/-- A number and what follows it; there is none without a digit. -/
def scanDigits (s : List CChar) : Option (ℕ × List CChar) :=
  if s.takeWhile isDigit = [] then none
  else some (digitsValue (s.takeWhile isDigit), s.dropWhile isDigit)

/-- `%d` of `sscanf`, and what is behind it. -/
def scanInt (s : List CChar) : Option (ℤ × List CChar) :=
  (scanDigits (scanSign (s.dropWhile isSpace)).2).map fun (n, rest) =>
    ((scanSign (s.dropWhile isSpace)).1 * n, rest)

/-- `atol`. -/
def atol (s : List CChar) : ℤ := (scanInt s).elim 0 Prod.fst

/-- What follows a numeral does not go on with it. -/
def NoDigit (rest : List CChar) : Prop := ∀ c ∈ rest.head?, isDigit c = false

theorem noDigit_nil : NoDigit [] := fun _ hc => nomatch hc

theorem noDigit_cons {c : CChar} {rest : List CChar} (h : isDigit c = false) :
    NoDigit (c :: rest) := by
  intro c' hc'
  rw [List.head?_cons, Option.mem_some] at hc'
  rwa [← hc']

theorem noDigit_blank (s : List CChar) : NoDigit (blank :: s) := noDigit_cons (by decide)

theorem scanInt_blank (s : List CChar) : scanInt (blank :: s) = scanInt s := rfl

theorem takeWhile_isDigit_append {ds rest : List CChar} (hds : ∀ c ∈ ds, isDigit c = true)
    (hrest : NoDigit rest) : (ds ++ rest).takeWhile isDigit = ds := by
  rw [List.takeWhile_append_of_pos hds]
  cases rest with
  | nil => simp
  | cons c rest => simp [hrest c rfl]

theorem dropWhile_isDigit_append {ds rest : List CChar} (hds : ∀ c ∈ ds, isDigit c = true)
    (hrest : NoDigit rest) : (ds ++ rest).dropWhile isDigit = rest := by
  rw [List.dropWhile_append_of_pos hds]
  cases rest with
  | nil => rfl
  | cons c rest => simp [hrest c rfl]

theorem scanDigits_append {ds rest : List CChar} (hne : ds ≠ [])
    (hds : ∀ c ∈ ds, isDigit c = true) (hrest : NoDigit rest) :
    scanDigits (ds ++ rest) = some (digitsValue ds, rest) := by
  rw [scanDigits, takeWhile_isDigit_append hds hrest, dropWhile_isDigit_append hds hrest,
    if_neg hne]

/-- A digit is neither white space nor a sign. -/
theorem not_space_of_isDigit {c : CChar} (h : isDigit c = true) :
    isSpace c = false ∧ c ≠ minus ∧ c ≠ plus := by
  revert c
  decide

theorem scanSign_of_isDigit {c : CChar} {s : List CChar} (h : isDigit c = true) :
    scanSign (c :: s) = (1, c :: s) := by
  obtain ⟨-, hminus, hplus⟩ := not_space_of_isDigit h
  rw [scanSign, if_neg hminus, if_neg hplus]

/-- The front of a printed number. -/
theorem exists_decimal_cons (n : ℕ) : ∃ c s, decimal n = c :: s ∧ isDigit c = true := by
  obtain ⟨c, s, h⟩ := List.exists_cons_of_ne_nil (decimal_ne_nil n)
  refine ⟨c, s, h, isDigit_of_mem_decimal (n := n) ?_⟩
  rw [h]
  exact List.mem_cons_self

theorem scanInt_printInt (z : ℤ) {rest : List CChar} (hrest : NoDigit rest) :
    scanInt (printInt z ++ rest) = some (z, rest) := by
  have hdigits := scanDigits_append (decimal_ne_nil z.natAbs)
    (fun c hc => isDigit_of_mem_decimal hc) hrest
  rw [digitsValue_decimal] at hdigits
  unfold printInt
  split_ifs with hz
  · have hspace : (minus :: decimal z.natAbs ++ rest).dropWhile isSpace =
        minus :: (decimal z.natAbs ++ rest) := rfl
    rw [scanInt, hspace, scanSign, if_pos rfl, hdigits, Option.map_some]
    simp only [Option.some.injEq, Prod.mk.injEq, and_true]
    omega
  · obtain ⟨c, s, hcons, hc⟩ := exists_decimal_cons z.natAbs
    have hspace : (decimal z.natAbs ++ rest).dropWhile isSpace = decimal z.natAbs ++ rest := by
      rw [hcons, List.cons_append, List.dropWhile_cons, (not_space_of_isDigit hc).1]
      rfl
    have hsign : scanSign (decimal z.natAbs ++ rest) = (1, decimal z.natAbs ++ rest) := by
      rw [hcons]
      exact scanSign_of_isDigit hc
    rw [scanInt, hspace, hsign, hdigits, Option.map_some]
    simp only [Option.some.injEq, Prod.mk.injEq, and_true]
    omega

theorem atol_printInt (z : ℤ) : atol (printInt z) = z := by
  have hscan := scanInt_printInt z noDigit_nil
  rw [List.append_nil] at hscan
  rw [atol, hscan]
  rfl

theorem digitsValue_le_append (ds es : List CChar) : digitsValue ds ≤ digitsValue (ds ++ es) := by
  have hgrow : ∀ (es : List CChar) (n : ℕ),
      n ≤ es.foldl (fun n d => 10 * n + (d.toNat - 48)) n := by
    intro es
    induction es with
    | nil => exact fun n => le_rfl
    | cons e es ih => exact fun n => le_trans (by omega) (ih (10 * n + (e.toNat - 48)))
  rw [digitsValue, digitsValue, List.foldl_append]
  exact hgrow es _

theorem digitsValue_takeWhile_le_append (s r : List CChar) :
    digitsValue (s.takeWhile isDigit) ≤ digitsValue ((s ++ r).takeWhile isDigit) := by
  by_cases hall : ∀ c ∈ s, isDigit c = true
  · rw [List.takeWhile_append_of_pos hall, List.takeWhile_eq_self_iff.2 hall]
    exact digitsValue_le_append s _
  · have hshort : (s.takeWhile isDigit).length ≠ s.length := by
      intro hlen
      have hself := (List.takeWhile_prefix isDigit (l := s)).eq_of_length hlen
      exact hall (List.takeWhile_eq_self_iff.1 hself)
    rw [List.takeWhile_append, if_neg hshort]

/-- A positive number does not get smaller when more characters follow it. -/
theorem atol_le_append {s : List CChar} (hpos : 0 < atol s) (r : List CChar) :
    atol s ≤ atol (s ++ r) := by
  have hnum : ∀ t : List CChar, atol t =
      (scanSign (t.dropWhile isSpace)).1 *
        digitsValue ((scanSign (t.dropWhile isSpace)).2.takeWhile isDigit) := by
    intro t
    rw [atol, scanInt, scanDigits]
    split_ifs with hnil
    · rw [hnil]
      simp [digitsValue]
    · rfl
  rw [hnum] at hpos ⊢
  rw [hnum]
  obtain ⟨c, w, hw⟩ : ∃ c w, s.dropWhile isSpace = c :: w := by
    apply List.exists_cons_of_ne_nil
    intro hnil
    rw [hnil] at hpos
    exact absurd hpos (by simp [scanSign, digitsValue])
  have hskip : (s ++ r).dropWhile isSpace = c :: (w ++ r) := by
    rw [List.dropWhile_append, hw]
    rfl
  rw [hw] at hpos ⊢
  rw [hskip]
  have hdigits := digitsValue_takeWhile_le_append w r
  have hdigits' := digitsValue_takeWhile_le_append (c :: w) r
  rw [List.cons_append] at hdigits'
  have hsign : ∀ t : List CChar, scanSign (c :: t) =
      if c = minus then (-1, t) else if c = plus then (1, t) else (1, c :: t) := fun _ => rfl
  rw [hsign] at hpos ⊢
  rw [hsign]
  split_ifs at hpos ⊢
  · dsimp only at hpos
    omega
  · simp only [one_mul, Nat.cast_le]
    exact hdigits
  · simp only [one_mul, Nat.cast_le]
    exact hdigits'

/-- The characters of a printed number. -/
theorem mem_printInt {z : ℤ} {c : CChar} (hc : c ∈ printInt z) : c = minus ∨ isDigit c = true := by
  unfold printInt at hc
  split_ifs at hc with hz
  · rcases List.mem_cons.1 hc with h | h
    · exact Or.inl h
    · exact Or.inr (isDigit_of_mem_decimal h)
  · exact Or.inr (isDigit_of_mem_decimal hc)

/-- A character that is no part of a numeral is not in one. -/
theorem notMem_printInt {c : CChar} (hminus : c ≠ minus) (hdigit : isDigit c = false) (z : ℤ) :
    c ∉ printInt z := by
  intro hc
  rcases mem_printInt hc with h | h
  · exact hminus h
  · rw [hdigit] at h
    exact Bool.noConfusion h

example : printInt (-205) = ascii "-205" := by decide

/-! ## Fixed point -/

/-- `k` digits, with leading zeros. -/
def padded : ℕ → ℕ → List CChar
  | 0, _ => []
  | k + 1, n => padded k (n / 10) ++ [digit (n % 10)]

theorem length_padded (k n : ℕ) : (padded k n).length = k := by
  induction k generalizing n with
  | zero => rfl
  | succ k ih => rw [padded, List.length_append, ih, List.length_singleton]

theorem isDigit_of_mem_padded {k n : ℕ} {c : CChar} (hc : c ∈ padded k n) : isDigit c = true := by
  induction k generalizing n with
  | zero => exact absurd hc List.not_mem_nil
  | succ k ih =>
    rw [padded, List.mem_append, List.mem_singleton] at hc
    rcases hc with hc | rfl
    · exact ih hc
    · exact isDigit_digit (Nat.mod_lt n (by norm_num))

/-- A padded number begins with a digit. -/
theorem exists_padded_cons {k : ℕ} (hk : 0 < k) (n : ℕ) :
    ∃ c s, padded k n = c :: s ∧ isDigit c = true := by
  have hne : padded k n ≠ [] := List.ne_nil_of_length_pos (by rwa [length_padded])
  obtain ⟨c, s, hcons⟩ := List.exists_cons_of_ne_nil hne
  have hmem : c ∈ padded k n := by
    rw [hcons]
    exact List.mem_cons_self
  exact ⟨c, s, hcons, isDigit_of_mem_padded hmem⟩

theorem digitsValue_padded (k n : ℕ) : digitsValue (padded k n) = n % 10 ^ k := by
  induction k generalizing n with
  | zero => rw [pow_zero, Nat.mod_one]; rfl
  | succ k ih =>
    have hlast : digitsValue (padded k (n / 10) ++ [digit (n % 10)]) =
        10 * digitsValue (padded k (n / 10)) + n % 10 := by
      rw [digitsValue, List.foldl_append, List.foldl_cons, List.foldl_nil,
        digit_toNat (Nat.mod_lt n (by norm_num)), digitsValue]
    rw [padded, hlast, ih, pow_succ', Nat.mod_mul]
    omega

/-- `q` to six decimals. -/
def sixDecimals (q : ℚ) : ℚ := roundEven (q * 10 ^ 6) / 10 ^ 6

/-- The number of millionths without the sign. -/
def millionths (q : ℚ) : ℕ := (roundEven (|q| * 10 ^ 6)).toNat

/-- `%f`. -/
def printFixed (q : ℚ) : List CChar :=
  (if q < 0 then [minus] else []) ++
    (decimal (millionths q / 10 ^ 6) ++ point :: padded 6 (millionths q))

/-- What is behind the point. -/
def scanFraction : List CChar → ℚ
  | c :: s =>
    if c = point then digitsValue (s.takeWhile isDigit) / 10 ^ (s.takeWhile isDigit).length else 0
  | [] => 0

/-- `%f` of `sscanf` on a numeral without exponent. -/
def scanFixed (s : List CChar) : Option ℚ :=
  (scanDigits (scanSign (s.dropWhile isSpace)).2).map fun (n, rest) =>
    (scanSign (s.dropWhile isSpace)).1 * (n + scanFraction rest)

/-- What follows the point and its digits. -/
def fractionEnd : List CChar → List CChar
  | c :: s => if c = point then s.dropWhile isDigit else c :: s
  | [] => []

/-- `%f` of `sscanf` on a numeral without exponent, and what is behind it. -/
def scanFixedRest (s : List CChar) : Option (ℚ × List CChar) :=
  (scanDigits (scanSign (s.dropWhile isSpace)).2).map fun (n, rest) =>
    ((scanSign (s.dropWhile isSpace)).1 * (n + scanFraction rest), fractionEnd rest)

theorem scanFixed_eq (s : List CChar) : scanFixed s = (scanFixedRest s).map Prod.fst := by
  rw [scanFixed, scanFixedRest, Option.map_map]
  rfl

theorem scanFraction_padded (n : ℕ) {rest : List CChar} (hrest : NoDigit rest) :
    scanFraction (point :: (padded 6 n ++ rest)) = ((n % 10 ^ 6 : ℕ) : ℚ) / 10 ^ 6 := by
  rw [scanFraction, if_pos rfl,
    takeWhile_isDigit_append (fun c hc => isDigit_of_mem_padded hc) hrest, digitsValue_padded,
    length_padded]

theorem fractionEnd_padded (n : ℕ) {rest : List CChar} (hrest : NoDigit rest) :
    fractionEnd (point :: (padded 6 n ++ rest)) = rest := by
  rw [fractionEnd, if_pos rfl,
    dropWhile_isDigit_append (fun c hc => isDigit_of_mem_padded hc) hrest]

theorem millionths_eq (q : ℚ) : (millionths q : ℚ) = if q < 0 then -roundEven (q * 10 ^ 6)
    else roundEven (q * 10 ^ 6) := by
  have hnonneg : 0 ≤ roundEven (|q| * 10 ^ 6) := by
    have hzero : roundEven 0 = 0 := by simpa using roundEven_intCast 0
    rw [← hzero]
    exact roundEven_mono (by positivity)
  have hcast : ((millionths q : ℕ) : ℚ) = roundEven (|q| * 10 ^ 6) := by
    rw [millionths, ← Int.cast_natCast, Int.toNat_of_nonneg hnonneg]
  rw [hcast]
  split_ifs with hq
  · rw [abs_of_neg hq, neg_mul, roundEven_neg, Int.cast_neg]
  · rw [abs_of_nonneg (not_lt.1 hq)]

/-- A printed number is scanned to six decimals, whatever follows it that is not a digit. -/
theorem scanFixedRest_printFixed (q : ℚ) {rest : List CChar} (hrest : NoDigit rest) :
    scanFixedRest (printFixed q ++ rest) = some (sixDecimals q, rest) := by
  have hpoint : NoDigit (point :: (padded 6 (millionths q) ++ rest)) := noDigit_cons (by decide)
  have hdigits := scanDigits_append (decimal_ne_nil (millionths q / 10 ^ 6))
    (fun c hc => isDigit_of_mem_decimal hc) hpoint
  rw [digitsValue_decimal] at hdigits
  have hvalue : ((millionths q / 10 ^ 6 : ℕ) : ℚ) +
      scanFraction (point :: (padded 6 (millionths q) ++ rest)) = millionths q / 10 ^ 6 := by
    rw [scanFraction_padded _ hrest, eq_div_iff (by norm_num), add_mul,
      div_mul_cancel₀ _ (by norm_num)]
    exact_mod_cast Nat.div_add_mod' (millionths q) (10 ^ 6)
  have hend := fractionEnd_padded (millionths q) hrest
  have htext : decimal (millionths q / 10 ^ 6) ++ point :: padded 6 (millionths q) ++ rest =
      decimal (millionths q / 10 ^ 6) ++ point :: (padded 6 (millionths q) ++ rest) := by
    rw [List.append_assoc, List.cons_append]
  rw [printFixed, List.append_assoc, htext]
  by_cases hq : q < 0
  · have hspace : ([minus] ++ (decimal (millionths q / 10 ^ 6) ++
        point :: (padded 6 (millionths q) ++ rest))).dropWhile isSpace = minus ::
          (decimal (millionths q / 10 ^ 6) ++ point :: (padded 6 (millionths q) ++ rest)) := rfl
    rw [if_pos hq, scanFixedRest, hspace, scanSign, if_pos rfl, hdigits, Option.map_some]
    dsimp only
    rw [hvalue, hend, millionths_eq, if_pos hq, sixDecimals]
    push_cast
    rw [neg_div, neg_one_mul, neg_neg]
  · obtain ⟨c, s, hcons, hc⟩ := exists_decimal_cons (millionths q / 10 ^ 6)
    have hspace : (decimal (millionths q / 10 ^ 6) ++
        point :: (padded 6 (millionths q) ++ rest)).dropWhile isSpace =
          decimal (millionths q / 10 ^ 6) ++ point :: (padded 6 (millionths q) ++ rest) := by
      rw [hcons, List.cons_append, List.dropWhile_cons, (not_space_of_isDigit hc).1]
      rfl
    have hsign : scanSign (decimal (millionths q / 10 ^ 6) ++
        point :: (padded 6 (millionths q) ++ rest)) =
          (1, decimal (millionths q / 10 ^ 6) ++ point :: (padded 6 (millionths q) ++ rest)) := by
      rw [hcons]
      exact scanSign_of_isDigit hc
    rw [if_neg hq, List.nil_append, scanFixedRest, hspace, hsign, hdigits, Option.map_some]
    dsimp only
    rw [hvalue, hend, millionths_eq, if_neg hq, sixDecimals, Int.cast_one, one_mul]

theorem scanFixed_printFixed (q : ℚ) : scanFixed (printFixed q) = some (sixDecimals q) := by
  have hscan := scanFixedRest_printFixed q noDigit_nil
  rw [List.append_nil] at hscan
  rw [scanFixed_eq, hscan, Option.map_some]

example : printFixed (-1 / 8) = ascii "-0.125000" := by decide +kernel

/-! ## Separators -/

section Separators

variable {α : Type} [DecidableEq α] {sep : α}

theorem splitOn_of_notMem {xs : List α} (h : sep ∉ xs) : xs.splitOn sep = [xs] := by
  apply List.splitOnP_eq_singleton
  intro x hx
  rw [beq_eq_false_iff_ne]
  rintro rfl
  exact h hx

theorem splitOn_append_cons (xs ys : List α) :
    (xs ++ sep :: ys).splitOn sep = xs.splitOn sep ++ ys.splitOn sep :=
  List.splitOnP_append_cons xs ys (beq_self_eq_true sep)

/-- Pieces with a separator behind each. -/
theorem splitOn_flatMap_concat {β : Type} (f : β → List α) {xs : List β} (h : ∀ x ∈ xs, sep ∉ f x) :
    (xs.flatMap fun x => f x ++ [sep]).splitOn sep = xs.map f ++ [[]] := by
  induction xs with
  | nil => rfl
  | cons x xs ih =>
    rw [List.flatMap_cons, List.append_assoc, List.singleton_append, splitOn_append_cons,
      splitOn_of_notMem (h x List.mem_cons_self), ih fun y hy => h y (List.mem_cons_of_mem x hy)]
    rfl

/-- Pieces with a separator in front of each. -/
theorem splitOn_flatMap_cons {β : Type} (f : β → List α) {xs : List β} (h : ∀ x ∈ xs, sep ∉ f x) :
    (xs.flatMap fun x => sep :: f x).splitOn sep = [] :: xs.map f := by
  induction xs using List.reverseRecOn with
  | nil => rfl
  | append_singleton xs x ih =>
    rw [List.flatMap_append, List.flatMap_cons, List.flatMap_nil, List.append_nil,
      splitOn_append_cons, ih fun y hy => h y (List.mem_append_left [x] hy),
      splitOn_of_notMem (h x (by simp)), List.map_append]
    rfl

end Separators

end PQL
