/-
  Which tokens `tokenize` makes of a line, and when they fit into its arrays.
-/
import OSModules.Shell.Parser

namespace Shell

open CArray CString Prog

/-! ## The lines that `main` reads -/

def typed (input : List Char) : Str := input.takeWhile (· ≠ '\n')

/-- The string for a line: its first `NUL`, or else the one behind it, becomes the newline. -/
def lineOf (typed : Str) : Str := cstr typed ++ '\n' :: cstr (typed.drop ((cstr typed).length + 1))

theorem lineOf_of_notMem {typed : Str} (h : '\x00' ∉ typed) : lineOf typed = typed ++ ['\n'] := by
  rw [lineOf, cstr_of_notMem h, List.drop_eq_nil_of_le (by omega)]
  rfl

theorem notMem_lineOf (typed : Str) : '\x00' ∉ lineOf typed := by
  rw [lineOf, List.mem_append, List.mem_cons, not_or, not_or]
  exact ⟨notMem_cstr _, by simp, notMem_cstr _⟩

/-- The cleared line with what was typed in it, and the newline. -/
theorem set_newline {typed : Str} {n : ℕ} (hn : 2 ≤ n) {line : List Char}
    (hline : line = typed ++ List.replicate n '\x00') :
    '\x00' ∈ line.set (cstr line).length '\n' ∧
      cstr (line.set (cstr line).length '\n') = lineOf typed := by
  have hcstr : cstr line = cstr typed := by
    rw [hline]
    exact cstr_append fun c hc => List.eq_of_mem_replicate hc
  have hle : (cstr typed).length ≤ typed.length := (List.takeWhile_prefix _).length_le
  have hlen : (cstr line).length < line.length := by
    rw [hcstr, hline, List.length_append, List.length_replicate]
    omega
  have hset : line.set (cstr line).length '\n' =
      cstr typed ++ '\n' :: (typed.drop ((cstr typed).length + 1) ++
        List.replicate (n - ((cstr typed).length + 1 - typed.length)) '\x00') := by
    rw [set_cstr hlen, hcstr, hline, List.drop_append, List.drop_replicate]
  rw [hset]
  constructor
  · refine List.mem_append_right _ (List.mem_cons_of_mem _ (List.mem_append_right _ ?_))
    exact List.mem_replicate.2 ⟨by omega, rfl⟩
  · have hnl : '\x00' ∉ cstr typed ++ ['\n'] := by
      simpa using notMem_cstr typed
    rw [lineOf, List.append_cons, cstr_append_of_notMem hnl,
      cstr_append fun c hc => List.eq_of_mem_replicate hc, List.append_cons _ '\n' (cstr _)]

section
variable {s : Mem} {E : Fault → Prop}

/-- A line that is not too long is read. -/
theorem wp_readLine {input : List Char} (hlen : (typed input).length + 2 ≤ MAX_INPUT_SIZE)
    {Q : Str → Mem → Prop} (hQ : Q (lineOf (typed input)) s) : wp (readLine input) s E Q := by
  obtain ⟨hnul, hline⟩ := set_newline (Nat.le_sub_of_add_le' hlen) rfl
  simp only [readLine, wp_bind, wp_pure]
  refine wp_assert (show (typed input).length < MAX_INPUT_SIZE by omega) (wp_assert hnul ?_)
  exact hline.symm ▸ hQ

/-! ## Writing to the arrays -/

theorem wp_setToken {i : ℕ} {c : Char} {Q : Unit → Mem → Prop}
    (hin : ∀ h : i < MAX_TOKEN_SIZE, Q () { s with token := Function.update s.token ⟨i, h⟩ c })
    (hout : MAX_TOKEN_SIZE ≤ i → E .token) : wp (setToken i c) s E Q := by
  simp only [setToken, wp_bind, wp_get]
  exact wp_store hin hout

theorem wp_setTokens {i : ℕ} {token : Option Str} {Q : Unit → Mem → Prop}
    (hin : ∀ h : i < MAX_NUM_TOKENS, Q () { s with tokens := Function.update s.tokens ⟨i, h⟩ token })
    (hout : MAX_NUM_TOKENS ≤ i → E .tokens) : wp (setTokens i token) s E Q := by
  simp only [setTokens, wp_bind, wp_get]
  exact wp_store hin hout

end

/-! ## Tokens of a string -/

/-- The words that a separator ends. -/
def tokensOf (s : Str) : List Str := (s.splitOnP isSep).dropLast.filter (· ≠ [])

/-- What comes behind the last separator. -/
def openWord (s : Str) : Str := (s.splitOnP isSep).getLastD []

/-- Each token fits into an array with its `NUL`, and the rest without. -/
structure WordsFit (s : Str) : Prop where
  token : ∀ t ∈ tokensOf s, t.length < MAX_TOKEN_SIZE
  rest : (openWord s).length ≤ MAX_TOKEN_SIZE

section
variable {w s : Str} {c : Char}

theorem tokensOf_append (hc : isSep c) (w s : Str) :
    tokensOf (w ++ c :: s) = words isSep w ++ tokensOf s := by
  rw [tokensOf, List.splitOnP_append_cons w s hc,
    List.dropLast_append_of_ne_nil (List.splitOnP_ne_nil _ _), List.filter_append]
  rfl

theorem openWord_append (hc : isSep c) (w s : Str) : openWord (w ++ c :: s) = openWord s := by
  rw [openWord, List.splitOnP_append_cons w s hc, List.getLastD_eq_getLast?, List.getLast?_append]
  obtain ⟨x, hx⟩ := List.getLast?_isSome.2 (List.splitOnP_ne_nil isSep s) |> Option.isSome_iff_exists.1
  rw [openWord, List.getLastD_eq_getLast?, hx]
  rfl

theorem tokensOf_word (hw : ∀ c ∈ w, isSep c = false) : tokensOf w = [] := by
  rw [tokensOf, List.splitOnP_eq_singleton hw]
  rfl

theorem openWord_word (hw : ∀ c ∈ w, isSep c = false) : openWord w = w := by
  rw [openWord, List.splitOnP_eq_singleton hw]
  rfl

/-- The tokens of a line with its newline are its words. -/
theorem tokensOf_line (line : Str) : tokensOf (line ++ ['\n']) = words isSep line := by
  rw [tokensOf_append rfl, tokensOf_word (by simp), List.append_nil]

theorem openWord_line (line : Str) : openWord (line ++ ['\n']) = [] := by
  rw [openWord_append rfl]
  exact openWord_word (by simp)

theorem wordsFit_append (hc : isSep c) (w s : Str) : WordsFit (w ++ c :: s) ↔
    (∀ t ∈ words isSep w, t.length < MAX_TOKEN_SIZE) ∧ WordsFit s := by
  constructor
  · rintro ⟨htoken, hrest⟩
    rw [tokensOf_append hc] at htoken
    rw [openWord_append hc] at hrest
    exact ⟨fun t ht => htoken t (List.mem_append_left _ ht),
      fun t ht => htoken t (List.mem_append_right _ ht), hrest⟩
  · rintro ⟨hw, htoken, hrest⟩
    refine ⟨?_, ?_⟩
    · rw [tokensOf_append hc]
      intro t ht
      exact (List.mem_append.1 ht).elim (hw t) (htoken t)
    · rwa [openWord_append hc]

theorem forall_isSep_append (hw : ∀ d ∈ w, isSep d = false) (hc : ¬ isSep c) :
    ∀ d ∈ w ++ [c], isSep d = false := by
  intro d hd
  rcases List.mem_append.1 hd with hd | hd
  · exact hw d hd
  · rw [List.mem_singleton.1 hd]
    exact Bool.eq_false_iff.2 hc

/-- A word that is begun fits if the whole does. -/
theorem WordsFit.length_le (hw : ∀ c ∈ w, isSep c = false) (h : WordsFit (w ++ s)) :
    w.length ≤ MAX_TOKEN_SIZE := by
  induction s generalizing w with
  | nil =>
    rw [List.append_nil] at h
    simpa only [openWord_word hw] using h.rest
  | cons c s ih =>
    by_cases hc : isSep c
    · rcases eq_or_ne w [] with rfl | hne
      · exact Nat.zero_le _
      · refine (h.token w ?_).le
        rw [tokensOf_append hc, words_word hne hw]
        exact List.mem_append_left _ (List.mem_singleton_self w)
    · rw [← List.singleton_append, ← List.append_assoc] at h
      have hw' := forall_isSep_append hw hc
      have := ih hw' h
      rw [List.length_append] at this
      omega

end

/-! ## The loop of `tokenize` -/

/-- The string in an array with its `NUL`. -/
theorem cstr_ofFn {n : ℕ} {a : Fin n → Char} {w : Str} (h : Starts a (w ++ ['\x00']))
    (hw : '\x00' ∉ w) : cstr (List.ofFn a) = w := by
  obtain ⟨rest, hrest⟩ := h
  rw [← hrest, List.append_assoc, cstr_append_of_notMem hw]
  exact List.append_nil w

section
variable {s : Mem} {line w : Str} {done : List Str}

/-- The word that is read stands in `token`, and the tokens before it in `tokens`. -/
structure Scanned (s : Mem) (w : Str) (done : List Str) : Prop where
  sep : ∀ c ∈ w, isSep c = false
  nul : '\x00' ∉ w
  token : Starts s.token w
  tokens : Starts s.tokens (done.map some)

/-- The tokens of a string that are made behind others fit. -/
def ScanFits (done : List Str) (line : Str) : Prop :=
  WordsFit line ∧ (done ++ tokensOf line).length ≤ MAX_NUM_TOKENS

theorem scanFits_append {c : Char} (hc : isSep c) (done : List Str) (w line : Str) :
    ScanFits done (w ++ c :: line) ↔
      (∀ t ∈ words isSep w, t.length < MAX_TOKEN_SIZE) ∧ ScanFits (done ++ words isSep w) line := by
  rw [ScanFits, ScanFits, wordsFit_append hc, tokensOf_append hc, List.append_assoc, and_assoc]

/-- From where a word is read, the loop makes the tokens of the rest if they fit. -/
theorem wp_scan (h : Scanned s w done) (hline : '\x00' ∉ line) :
    wp (scan line w.length done.length) s (fun _ => ¬ ScanFits done (w ++ line))
      fun tokenNo s' => ScanFits done (w ++ line) ∧ tokenNo = (done ++ tokensOf (w ++ line)).length ∧
        Starts s'.tokens ((done ++ tokensOf (w ++ line)).map some) := by
  induction line generalizing w done s with
  | nil =>
    have hw := h.token.length_le
    have hn := h.tokens.length_le
    rw [List.length_map] at hn
    rw [ScanFits, List.append_nil, tokensOf_word h.sep, List.append_nil, scan, wp_pure]
    refine ⟨⟨⟨?_, ?_⟩, hn⟩, rfl, h.tokens⟩
    · rw [tokensOf_word h.sep]
      exact fun t ht => absurd ht List.not_mem_nil
    · rwa [openWord_word h.sep]
  | cons c line ih =>
    rw [List.mem_cons, not_or] at hline
    rw [scan]
    split
    · next hc =>
      rw [scanFits_append hc, tokensOf_append hc, ← List.append_assoc]
      rcases eq_or_ne w [] with rfl | hne
      · -- a separator behind another
        have hnil : words isSep [] = [] := rfl
        rw [hnil, List.append_nil, wp_bind]
        refine wp_setToken (fun hi => ?_) fun hi => absurd hi (by simp)
        rw [if_neg (not_not.2 List.length_nil)]
        refine wp.mono (ih (w := []) ⟨h.sep, h.nul, Starts.nil, h.tokens⟩ hline.2) ?_ ?_
        · rintro - hfit ⟨-, hfit'⟩
          exact hfit hfit'
        · rintro tokenNo s' ⟨hfit, hrest⟩
          exact ⟨⟨fun t ht => absurd ht List.not_mem_nil, hfit⟩, hrest⟩
      · rw [words_word hne h.sep, wp_bind]
        refine wp_setToken (fun hi => ?_) fun hi hfit => ?_
        · have hread := cstr_ofFn (h.token.store hi '\x00') h.nul
          rw [if_pos (List.length_pos_of_ne_nil hne).ne', wp_bind, wp_get, wp_bind, hread]
          refine wp_setTokens (fun hj => ?_) fun hj hfit => ?_
          · have hlen : done.length + 1 = (done ++ [w]).length := by simp
            have hnil : ∀ d ∈ [], isSep d = false := fun d hd => absurd hd List.not_mem_nil
            rw [hlen]
            refine wp.mono (ih (w := []) ⟨hnil, List.not_mem_nil, Starts.nil, h.tokens.push hj w⟩
              hline.2) ?_ ?_
            · rintro - hfit ⟨-, hfit'⟩
              exact hfit hfit'
            · rintro tokenNo s' ⟨hfit, hrest⟩
              exact ⟨⟨fun t ht => (List.mem_singleton.1 ht) ▸ hi, hfit⟩, hrest⟩
          · have := hfit.2.2
            rw [List.length_append, List.length_append, List.length_singleton] at this
            omega
        · exact absurd (hfit.1 w (List.mem_singleton_self w)) (Nat.not_lt.2 hi)
    · next hc =>
      have hw' := forall_isSep_append h.sep hc
      have hnul : '\x00' ∉ w ++ [c] := by simpa using ⟨h.nul, hline.1⟩
      have hlen : w.length + 1 = (w ++ [c]).length := by simp
      rw [List.append_cons w c line, wp_bind]
      refine wp_setToken (fun hi => ?_) fun hi hfit => ?_
      · rw [hlen]
        exact ih ⟨hw', hnul, h.token.store hi c, h.tokens⟩ hline.2
      · have := hfit.1.length_le hw'
        rw [List.length_append, List.length_singleton] at this
        omega

end

/-! ## What `tokenize` makes -/

/-- The tokens of a string fit into the arrays, which end with a `NULL`. -/
structure TokensFit (line : Str) : Prop extends WordsFit line where
  tokens : (tokensOf line).length < MAX_NUM_TOKENS

theorem wp_tokenize {s : Mem} {line : Str} (hline : '\x00' ∉ line) :
    wp (tokenize line) s (fun _ => ¬ TokensFit line)
      fun _ s' => TokensFit line ∧ Holds s'.tokens (tokensOf line) := by
  rw [tokenize, wp_bind]
  have hstart : Scanned s [] [] := ⟨by simp, by simp, Starts.nil, Starts.nil⟩
  have hscan := wp_scan hstart hline
  refine hscan.mono (fun _ hfit hfit' => hfit ⟨hfit'.toWordsFit, hfit'.tokens.le⟩) ?_
  rintro tokenNo s' ⟨hfit, rfl, hstarts⟩
  refine wp_setTokens (fun hi => ?_) fun hi hfit' => ?_
  · exact ⟨⟨hfit.1, hi⟩, hstarts.holds hi⟩
  · exact absurd hfit'.tokens (Nat.not_lt.2 hi)

end Shell
