/-
  Strings of C: the characters before the first NUL, the tokens that `strtok` cuts off, and
  the number that `atoi` reads.
-/
import OSModules.Lib.CInt

namespace CString

open CInt

abbrev Str := List Char

/-- The string in a buffer. -/
def cstr (buffer : List Char) : Str := buffer.takeWhile (· ≠ '\x00')

/-- Behind a string, `NUL`s do not count. -/
theorem cstr_append {s t : List Char} (ht : ∀ c ∈ t, c = '\x00') : cstr (s ++ t) = cstr s := by
  induction s with
  | nil =>
    cases t with
    | nil => rfl
    | cons c t =>
      rw [ht c List.mem_cons_self]
      rfl
  | cons c s ih =>
    simp only [cstr] at ih ⊢
    rw [List.cons_append, List.takeWhile_cons, List.takeWhile_cons, ih]

/-- A part without `NUL`s is passed over. -/
theorem cstr_append_of_notMem {s : List Char} (hs : '\x00' ∉ s) (t : List Char) :
    cstr (s ++ t) = s ++ cstr t := by
  refine List.takeWhile_append_of_pos fun c hc => ?_
  rw [decide_eq_true_eq]
  rintro rfl
  exact hs hc

theorem cstr_of_notMem {s : List Char} (hs : '\x00' ∉ s) : cstr s = s := by
  have h := cstr_append_of_notMem hs []
  rwa [List.append_nil, show cstr [] = [] from rfl, List.append_nil] at h

theorem notMem_cstr (s : List Char) : '\x00' ∉ cstr s := by
  intro h
  simpa using List.all_eq_true.1 List.all_takeWhile _ h

/-- A character in the place of the first `NUL`. -/
theorem set_cstr {s : List Char} (h : (cstr s).length < s.length) (c : Char) :
    s.set (cstr s).length c = cstr s ++ c :: s.drop ((cstr s).length + 1) := by
  have htake : s.take (cstr s).length = cstr s :=
    (List.prefix_iff_eq_take.1 (List.takeWhile_prefix _)).symm
  rw [List.set_eq_take_append_cons_drop, if_pos h, htake]

/-! ## Tokens -/

section
variable (delim : Char → Bool)

/-- `strtok`: the next token, and the string after the delimiter that ends it. -/
def strtok (s : Str) : Option (Str × Str) :=
  match s.dropWhile delim with
  | [] => none
  | c :: s => some ((c :: s).takeWhile (!delim ·), ((c :: s).dropWhile (!delim ·)).tail)

/-- The tokens of at most `n` calls of `strtok`. -/
def strtoks : ℕ → Str → List Str
  | 0, _ => []
  | n + 1, s =>
    match strtok delim s with
    | none => []
    | some (token, s) => token :: strtoks n s

/-- The longest parts without delimiters. -/
def words (s : Str) : List Str := (s.splitOnP delim).filter (· ≠ [])

variable {delim}

/-- A delimiter separates the words before it from those behind it. -/
theorem words_append {d : Char} (hd : delim d) (s t : Str) :
    words delim (s ++ d :: t) = words delim s ++ words delim t := by
  rw [words, List.splitOnP_append_cons s t hd, List.filter_append]
  rfl

theorem words_cons {d : Char} (hd : delim d) (s : Str) : words delim (d :: s) = words delim s :=
  words_append hd [] s

theorem words_dropWhile (s : Str) : words delim (s.dropWhile delim) = words delim s := by
  induction s with
  | nil => rfl
  | cons c s ih =>
    by_cases hc : delim c
    · rw [List.dropWhile_cons_of_pos hc, ih, words_cons hc]
    · rw [List.dropWhile_cons_of_neg hc]

theorem words_word {w : Str} (hne : w ≠ []) (hw : ∀ c ∈ w, delim c = false) : words delim w = [w] := by
  rw [words, List.splitOnP_eq_singleton hw]
  simpa using hne

/-- A word, a delimiter, and the other words. -/
theorem words_append_cons {w : Str} (hne : w ≠ []) (hw : ∀ c ∈ w, delim c = false) {d : Char}
    (hd : delim d) (s : Str) : words delim (w ++ d :: s) = w :: words delim s := by
  rw [words_append hd, words_word hne hw]
  rfl

/-- What `strtok` cuts off is the first word. -/
theorem words_eq_strtok (s : Str) : words delim s =
    match strtok delim s with
    | none => []
    | some (token, s) => token :: words delim s := by
  rw [← words_dropWhile, strtok]
  cases hs : s.dropWhile delim with
  | nil => rfl
  | cons c t =>
    have hc : delim c = false := by
      have hhead := List.head_dropWhile_not delim (l := s) (by rw [hs]; exact List.cons_ne_nil c t)
      simpa only [hs, List.head_cons] using hhead
    have hne : (c :: t).takeWhile (!delim ·) ≠ [] := by
      rw [List.takeWhile_cons_of_pos (by simpa using hc)]
      exact List.cons_ne_nil _ _
    have hword : ∀ x ∈ (c :: t).takeWhile (!delim ·), delim x = false := by
      intro x hx
      simpa using List.all_eq_true.1 List.all_takeWhile x hx
    -- the word ends at a delimiter, or with the string
    conv_lhs => rw [← List.takeWhile_append_dropWhile (p := (!delim ·)) (l := c :: t)]
    cases hd : (c :: t).dropWhile (!delim ·) with
    | nil =>
      rw [List.append_nil, words_word hne hword]
      simp only [hd]
      rfl
    | cons d u =>
      have hdelim : delim d := by
        have hhead := List.head_dropWhile_not (!delim ·) (l := c :: t)
          (by rw [hd]; exact List.cons_ne_nil d u)
        simpa only [hd, List.head_cons, Bool.not_eq_false'] using hhead
      rw [words_append_cons hne hword hdelim]
      simp only [hd, List.tail_cons]

theorem strtoks_eq_take (n : ℕ) (s : Str) : strtoks delim n s = (words delim s).take n := by
  induction n generalizing s with
  | zero => rfl
  | succ n ih =>
    rw [strtoks, words_eq_strtok]
    cases strtok delim s with
    | none => rfl
    | some x =>
      obtain ⟨token, s⟩ := x
      simp only [ih, List.take_succ_cons]

theorem words_eq_nil {s : Str} (h : ∀ c ∈ s, delim c) : words delim s = [] := by
  induction s with
  | nil => rfl
  | cons c s ih =>
    rw [words_cons (h c List.mem_cons_self)]
    exact ih fun d hd => h d (List.mem_cons_of_mem _ hd)

/-- Delimiters at the end do not count. -/
theorem words_append_of_delim (s : Str) {t : Str} (h : ∀ c ∈ t, delim c) :
    words delim (s ++ t) = words delim s := by
  cases t with
  | nil => rw [List.append_nil]
  | cons d t =>
    rw [words_append (h d List.mem_cons_self), words_eq_nil fun c hc => h c (List.mem_cons_of_mem _ hc),
      List.append_nil]

/-- The words have all characters that are no delimiters. -/
theorem flatten_words (s : Str) : (words delim s).flatten = s.filter (!delim ·) := by
  rw [words, List.flatten_filter_ne_nil]
  induction s with
  | nil => rfl
  | cons c s ih =>
    rw [List.splitOnP_cons_eq_if_modifyHead]
    cases hc : delim c with
    | true => simp [hc, ih]
    | false =>
      obtain ⟨w, ws, hws⟩ := List.exists_cons_of_ne_nil (List.splitOnP_ne_nil delim s)
      simp only [hws, List.flatten_cons] at ih ⊢
      simp [hc, ← ih]

theorem mem_words_iff {s : Str} {c : Char} :
    (∃ w ∈ words delim s, c ∈ w) ↔ c ∈ s ∧ delim c = false := by
  rw [← List.mem_flatten, flatten_words, List.mem_filter, Bool.not_eq_true']

/-- A word takes a character and a delimiter. -/
theorem length_words (s : Str) : 2 * (words delim s).length ≤ s.length + 1 := by
  have hs := List.takeWhile_append_dropWhile (p := (!delim ·)) (l := s)
  have hword : ∀ c ∈ s.takeWhile (!delim ·), delim c = false := by
    intro c hc
    simpa using List.all_eq_true.1 List.all_takeWhile c hc
  have hw : 2 * (words delim (s.takeWhile (!delim ·))).length ≤ (s.takeWhile (!delim ·)).length + 1 := by
    cases hcases : s.takeWhile (!delim ·) with
    | nil => exact Nat.zero_le _
    | cons c w =>
      rw [← hcases, words_word (by rw [hcases]; exact List.cons_ne_nil c w) hword, hcases]
      simp only [List.length_cons, List.length_nil]
      omega
  cases ht : s.dropWhile (!delim ·) with
  | nil =>
    rw [ht, List.append_nil] at hs
    rwa [hs] at hw
  | cons d t =>
    have hd : delim d := by
      have hhead := List.head_dropWhile_not (!delim ·) (l := s) (by rw [ht]; exact List.cons_ne_nil d t)
      simpa only [ht, List.head_cons, Bool.not_eq_false'] using hhead
    rw [ht] at hs
    have hlen : s.length = (s.takeWhile (!delim ·)).length + (t.length + 1) := by
      conv_lhs => rw [← hs, List.length_append, List.length_cons]
    have hrest := length_words t
    conv_lhs => rw [← hs, words_append hd, List.length_append]
    omega
termination_by s.length
decreasing_by omega

/-- Words with a delimiter between them are read back. -/
theorem words_intercalate {d : Char} (hd : delim d) {ws : List Str}
    (h : ∀ w ∈ ws, w ≠ [] ∧ ∀ c ∈ w, delim c = false) : words delim ([d].intercalate ws) = ws := by
  induction ws with
  | nil => rfl
  | cons w ws ih =>
    have hw := h w List.mem_cons_self
    cases ws with
    | nil => rw [List.intercalate_singleton, words_word hw.1 hw.2]
    | cons v ws =>
      rw [List.intercalate_cons_cons, List.append_assoc, List.singleton_append,
        words_append_cons hw.1 hw.2 hd, ih fun u hu => h u (List.mem_cons_of_mem _ hu)]

theorem mem_intercalate {d c : Char} {ws : List Str} (h : c ∈ [d].intercalate ws) :
    c = d ∨ ∃ w ∈ ws, c ∈ w := by
  induction ws with
  | nil => exact absurd h List.not_mem_nil
  | cons w ws ih =>
    cases ws with
    | nil =>
      rw [List.intercalate_singleton] at h
      exact Or.inr ⟨w, List.mem_cons_self, h⟩
    | cons v ws =>
      rw [List.intercalate_cons_cons, List.mem_append, List.mem_append, or_assoc] at h
      rcases h with hw | hd | hrest
      · exact Or.inr ⟨w, List.mem_cons_self, hw⟩
      · exact Or.inl (List.mem_singleton.1 hd)
      · exact (ih hrest).imp_right fun ⟨u, hu, hc⟩ => ⟨u, List.mem_cons_of_mem _ hu, hc⟩

/-- Between words there is at least one character. -/
theorem length_intercalate_words (d : Char) (s : Str) :
    ([d].intercalate (words delim s)).length ≤ s.length := by
  have hdrop := (List.dropWhile_suffix delim (l := s)).length_le
  rw [words_eq_strtok, strtok]
  cases hs : s.dropWhile delim with
  | nil => exact Nat.zero_le _
  | cons c u =>
    have htake := congrArg List.length
      (List.takeWhile_append_dropWhile (p := (!delim ·)) (l := c :: u))
    rw [List.length_append] at htake
    rw [hs] at hdrop
    dsimp only
    cases ht : (c :: u).dropWhile (!delim ·) with
    | nil =>
      rw [ht, List.length_nil] at htake
      show ([d].intercalate [_]).length ≤ s.length
      rw [List.intercalate_singleton]
      omega
    | cons e t =>
      rw [ht, List.length_cons] at htake
      have hlt : t.length < s.length := by omega
      have hrest := length_intercalate_words d t
      rw [List.tail_cons]
      cases hw : words delim t with
      | nil =>
        rw [List.intercalate_singleton]
        omega
      | cons v ws =>
        rw [hw] at hrest
        rw [List.intercalate_cons_cons, List.length_append, List.length_append,
          List.length_singleton]
        omega
termination_by s.length
decreasing_by omega

end

/-! ## Numbers -/

def isspace (c : Char) : Bool := c ∈ [' ', '\t', '\n', '\x0b', '\x0c', '\r']

/-- The number that the digits at the front of a string stand for, after those that stand for
`n`. -/
def digits (n : ℕ) : Str → ℕ
  | [] => n
  | c :: s => if c.isDigit then digits (10 * n + (c.toNat - '0'.toNat)) s else n

/-- The number at the front of a string, 0 if there is none. -/
def number (s : Str) : ℤ :=
  match s.dropWhile isspace with
  | '-' :: s => -digits 0 s
  | '+' :: s => digits 0 s
  | s => digits 0 s

/-- `atoi`. For a number that is no `int` it is undefined: any `int` may come back, `wide s`. -/
def atoi (wide : Str → Int32) (s : Str) : ℤ :=
  if InInt (number s) then number s else (wide s).toInt

example : atoi 0 "-12x".toList = -12 := by decide

end CString
