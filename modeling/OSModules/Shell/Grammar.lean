/-
  The language of the shell: commands of words with `&&` or `&&&` between them.

  `grammar_iff`: a line without `&` is executed to its end if and only if it is written down from
  such a command line, which it determines; what is executed are the commands of the command line;
  and written with single blanks it is executed in the same way.
-/
import OSModules.Shell.Sessions

namespace Shell

open CArray CString Prog

/-! ## Command lines -/

/-- A word that the shell can hold. -/
@[ext] structure Word where
  text : Str
  ne : text ≠ []
  plain : ∀ c ∈ text, isSep c = false
  nul : '\x00' ∉ text
  length : text.length < MAX_TOKEN_SIZE
  noOp : isOp text = false

/-- Commands run one after the other, or at the same time. -/
inductive Op
  | serial
  | parallel
  deriving DecidableEq

def Op.text : Op → Str
  | serial => "&&".toList
  | parallel => "&&&".toList

@[ext] structure Command where
  name : Word
  args : List Word

def Command.argv (c : Command) : List Str := (c.name :: c.args).map Word.text

@[ext] structure CommandLine where
  first : Command
  rest : List (Op × Command)

namespace CommandLine

def tokens (l : CommandLine) : List Str :=
  l.first.argv ++ l.rest.flatMap fun p => p.1.text :: p.2.argv

def commands (l : CommandLine) : List Command := l.first :: l.rest.map Prod.snd

/-- The last operator says how all commands are run. -/
def background (l : CommandLine) : Bool := decide ((l.rest.map Prod.fst).getLast? = some .parallel)

def actions (l : CommandLine) : List Action :=
  l.commands.map fun c => actionOf l.background c.argv

/-- The line with single blanks. -/
def render (l : CommandLine) : Str := [' '].intercalate l.tokens

end CommandLine

/-! ## What is read of a command line -/

theorem Op.isOp_text (op : Op) : isOp op.text := by
  cases op <;> rfl

theorem Op.text_inj {op op' : Op} (h : op.text = op'.text) : op = op' := by
  revert h
  cases op <;> cases op' <;> decide

theorem Op.eq_of_isOp {t : Str} (ht : isOp t) (hamp : t ≠ "&".toList) : ∃ op : Op, op.text = t := by
  rw [isOp, decide_eq_true_eq] at ht
  rcases ht with rfl | rfl | rfl
  · exact absurd rfl hamp
  · exact ⟨.serial, rfl⟩
  · exact ⟨.parallel, rfl⟩

theorem Command.not_isOp {c : Command} {t : Str} (ht : t ∈ c.argv) : isOp t = false := by
  obtain ⟨w, -, rfl⟩ := List.mem_map.1 ht
  exact w.noOp

theorem Command.argv_ne (c : Command) : c.argv ≠ [] := List.cons_ne_nil _ _

theorem Command.argv_inj {c c' : Command} (h : c.argv = c'.argv) : c = c' := by
  have hinj : Function.Injective Word.text := fun _ _ => Word.ext
  obtain ⟨hname, hargs⟩ := List.cons.inj (List.map_injective_iff.2 hinj h)
  exact Command.ext hname hargs

theorem segmentsFrom_append {cur a : List Str} (ha : ∀ t ∈ a, isOp t = false) (b : List Str) :
    segmentsFrom cur (a ++ b) = segmentsFrom (cur ++ a) b := by
  induction a generalizing cur with
  | nil => rw [List.nil_append, List.append_nil]
  | cons t a ih =>
    have ht : ¬ isOp t := by rw [ha t List.mem_cons_self]; exact Bool.false_ne_true
    rw [List.cons_append, segmentsFrom_token ht, ih fun u hu => ha u (List.mem_cons_of_mem _ hu),
      List.append_assoc]
    rfl

theorem segments_rest (c : Command) (rest : List (Op × Command)) :
    segments (c.argv ++ rest.flatMap fun p => p.1.text :: p.2.argv) =
      c.argv :: rest.map fun p => p.2.argv := by
  rw [← segmentsFrom_nil, segmentsFrom_append fun _ => c.not_isOp]
  induction rest generalizing c with
  | nil => simp [segmentsFrom]
  | cons p rest ih =>
    rw [List.flatMap_cons, List.cons_append, segmentsFrom_op p.1.isOp_text, ← segmentsFrom_nil,
      segmentsFrom_append fun _ => p.2.not_isOp, ih]
    rfl

namespace CommandLine

variable {l l' : CommandLine}

theorem segments_tokens (l : CommandLine) : segments l.tokens = l.commands.map Command.argv := by
  rw [tokens, segments_rest, commands, List.map_cons, List.map_map]
  rfl

/-- The operators of a command line are those among its tokens. -/
theorem filter_tokens (l : CommandLine) :
    l.tokens.filter isOp = (l.rest.map Prod.fst).map Op.text := by
  have hargv (c : Command) : c.argv.filter isOp = [] := by
    rw [List.filter_eq_nil_iff]
    intro t ht
    rw [c.not_isOp ht]
    exact Bool.false_ne_true
  rw [tokens, List.filter_append, hargv, List.nil_append]
  induction l.rest with
  | nil => rfl
  | cons p rest ih =>
    rw [List.flatMap_cons, List.cons_append, List.filter_cons_of_pos p.1.isOp_text,
      List.filter_append, hargv, List.nil_append, ih, List.map_cons, List.map_cons]

/-- The tokens determine the command line. -/
theorem tokens_inj (h : l.tokens = l'.tokens) : l = l' := by
  have hcommands : l.commands = l'.commands := by
    have hinj : Function.Injective Command.argv := fun _ _ => Command.argv_inj
    refine List.map_injective_iff.2 hinj ?_
    rw [← segments_tokens, ← segments_tokens, h]
  have hops : l.rest.map Prod.fst = l'.rest.map Prod.fst := by
    have hinj : Function.Injective Op.text := fun _ _ => Op.text_inj
    refine List.map_injective_iff.2 hinj ?_
    rw [← filter_tokens, ← filter_tokens, h]
  obtain ⟨hfirst, hrest⟩ := List.cons.inj hcommands
  refine CommandLine.ext hfirst ?_
  rw [← List.zip_unzip l.rest, ← List.zip_unzip l'.rest, List.unzip_eq_map, List.unzip_eq_map,
    hops, hrest]

theorem inBackground_tokens (l : CommandLine) : inBackground l.tokens = l.background := by
  have hlast : (l.tokens.filter isOp).getLast? = (l.rest.map Prod.fst).getLast?.map Op.text := by
    rw [filter_tokens, List.getLast?_map]
  rw [inBackground, background, typeOf, hlast]
  cases (l.rest.map Prod.fst).getLast? with
  | none => rfl
  | some op => cases op <;> rfl

/-- What the shell does of the words of a command line are its actions. -/
theorem actionsOf_tokens (l : CommandLine) : actionsOf l.tokens = l.actions := by
  rw [actionsOf, segments_tokens, inBackground_tokens, List.map_map]
  rfl

theorem amp_notMem (l : CommandLine) : "&".toList ∉ l.tokens := by
  intro h
  have hop : "&".toList ∈ l.tokens.filter isOp := List.mem_filter.2 ⟨h, isOp_amp⟩
  rw [filter_tokens] at hop
  obtain ⟨op, -, hop⟩ := List.mem_map.1 hop
  cases op <;> cases hop

theorem nil_notMem_segments (l : CommandLine) : [] ∉ segments l.tokens := by
  rw [segments_tokens]
  intro h
  obtain ⟨c, -, hc⟩ := List.mem_map.1 h
  exact c.argv_ne hc

/-- A token is an operator or a word. -/
theorem of_mem_tokens {t : Str} (ht : t ∈ l.tokens) :
    (∃ op : Op, op.text = t) ∨ ∃ w : Word, w.text = t := by
  have hargv {c : Command} (hc : t ∈ c.argv) : ∃ w : Word, w.text = t := by
    obtain ⟨w, -, hw⟩ := List.mem_map.1 hc
    exact ⟨w, hw⟩
  rcases List.mem_append.1 ht with ht | ht
  · exact Or.inr (hargv ht)
  · obtain ⟨p, -, ht⟩ := List.mem_flatMap.1 ht
    rcases List.mem_cons.1 ht with rfl | ht
    · exact Or.inl ⟨p.1, rfl⟩
    · exact Or.inr (hargv ht)

theorem word_of_tokens {t : Str} (ht : t ∈ l.tokens) :
    t ≠ [] ∧ (∀ c ∈ t, isSep c = false) ∧ '\x00' ∉ t ∧ t.length < MAX_TOKEN_SIZE := by
  obtain ⟨op, rfl⟩ | ⟨w, rfl⟩ := of_mem_tokens ht
  · cases op <;> simp [Op.text, isSep, MAX_TOKEN_SIZE]
  · exact ⟨w.ne, w.plain, w.nul, w.length⟩

theorem length_tokens (l : CommandLine) : 2 * l.rest.length + 1 ≤ l.tokens.length := by
  have hargv (c : Command) : 1 ≤ c.argv.length := List.length_pos_iff.2 c.argv_ne
  have hfirst := hargv l.first
  have hrest (rest : List (Op × Command)) :
      2 * rest.length ≤ (rest.flatMap fun p => p.1.text :: p.2.argv).length := by
    induction rest with
    | nil => exact Nat.zero_le _
    | cons p rest ih =>
      have hp := hargv p.2
      rw [List.flatMap_cons, List.length_append, List.length_cons, List.length_cons]
      omega
  have hl := hrest l.rest
  rw [tokens, List.length_append]
  omega

/-- The operators of a command line always fit. -/
theorem countP_tokens (l : CommandLine) (h : l.tokens.length < MAX_NUM_TOKENS) :
    l.tokens.countP isOp + 1 < MAX_BG_PROCS := by
  have hlen := l.length_tokens
  have hmax : MAX_NUM_TOKENS = MAX_BG_PROCS := rfl
  rw [List.countP_eq_length_filter, filter_tokens, List.length_map, List.length_map]
  omega

/-! ## Lines and command lines -/

/-- Tokens with no empty command between them are those of a command line. -/
theorem exists_of_segments {ts : List Str} (hwords : ∀ t ∈ ts, ¬ isOp t → ∃ w : Word, w.text = t)
    (hamp : "&".toList ∉ ts) (cur : List Word) (hne : [] ∉ segmentsFrom (cur.map Word.text) ts) :
    ∃ l : CommandLine, l.tokens = cur.map Word.text ++ ts := by
  induction ts generalizing cur with
  | nil =>
    cases cur with
    | nil => exact absurd (by simp [segmentsFrom]) hne
    | cons w ws => exact ⟨⟨⟨w, ws⟩, []⟩, rfl⟩
  | cons t ts ih =>
    have hwords' : ∀ u ∈ ts, ¬ isOp u → ∃ w : Word, w.text = u := fun u hu =>
      hwords u (List.mem_cons_of_mem _ hu)
    have hamp' : "&".toList ∉ ts := fun h => hamp (List.mem_cons_of_mem _ h)
    by_cases ht : isOp t
    · rw [segmentsFrom_op ht, List.mem_cons, not_or, ← segmentsFrom_nil] at hne
      obtain ⟨op, rfl⟩ := Op.eq_of_isOp ht fun he => hamp (he ▸ List.mem_cons_self)
      obtain ⟨l, hl⟩ := ih hwords' hamp' [] hne.2
      cases cur with
      | nil => exact absurd rfl hne.1
      | cons w ws =>
        refine ⟨⟨⟨w, ws⟩, (op, l.first) :: l.rest⟩, ?_⟩
        rw [List.map_nil, List.nil_append] at hl
        rw [← hl]
        rfl
    · obtain ⟨w, rfl⟩ := hwords t List.mem_cons_self ht
      have hcur : cur.map Word.text ++ [w.text] = (cur ++ [w]).map Word.text := by
        rw [List.map_append]
        rfl
      rw [segmentsFrom_token ht, hcur] at hne
      obtain ⟨l, hl⟩ := ih hwords' hamp' _ hne
      exact ⟨l, by rw [hl, ← hcur, List.append_assoc]; rfl⟩

theorem words_render (l : CommandLine) : words isSep l.render = l.tokens :=
  words_intercalate rfl fun _ ht => ⟨(word_of_tokens ht).1, (word_of_tokens ht).2.1⟩

theorem notMem_render (l : CommandLine) {c : Char} (hc : c = '\n' ∨ c = '\x00') : c ∉ l.render := by
  intro h
  rcases mem_intercalate h with rfl | ⟨t, ht, hct⟩
  · rcases hc with hc | hc <;> cases hc
  · obtain ⟨-, hplain, hnul, -⟩ := word_of_tokens ht
    rcases hc with rfl | rfl
    · exact absurd (hplain _ hct) (by decide)
    · exact hnul hct

/-- A layout of a command line that is not too long is executed as it is. -/
theorem intact (l : CommandLine) {line : Str} (hnul : '\x00' ∉ line) (hlen : line.length ≤ 1022)
    (hline : l.tokens = words isSep line) (htokens : l.tokens.length < MAX_NUM_TOKENS) :
    Intact line := by
  refine intact_of_fits hnul hlen ?_ (hline ▸ htokens) (hline ▸ l.countP_tokens htokens)
    (hline ▸ l.nil_notMem_segments) (hline ▸ l.amp_notMem)
  intro t ht
  exact (word_of_tokens (l := l) (hline ▸ ht)).2.2.2

end CommandLine

/-- The words of a line that is executed as it is are those of a command line. -/
theorem Intact.exists_commandLine {line : Str} (h : Intact line)
    (hamp : "&".toList ∉ words isSep line) :
    ∃ l : CommandLine, l.tokens = words isSep line ∧ l.tokens.length < MAX_NUM_TOKENS := by
  obtain ⟨htoken, htokens, -⟩ := (fits_line_iff line).1 h.fits
  have hwords : ∀ t ∈ words isSep line, ¬ isOp t → ∃ w : Word, w.text = t := by
    intro t ht hop
    have hne : t ≠ [] := by simpa using (List.mem_filter.1 ht).2
    refine ⟨⟨t, hne, fun c hc => (mem_words_iff.1 ⟨t, ht, hc⟩).2, fun hnul => ?_, htoken t ht,
      Bool.eq_false_iff.2 hop⟩, rfl⟩
    exact h.nul (mem_words_iff.1 ⟨t, ht, hnul⟩).1
  have hne : [] ∉ segmentsFrom (([] : List Word).map Word.text) (words isSep line) := by
    rw [List.map_nil, segmentsFrom_nil]
    exact h.nonempty
  obtain ⟨l, hl⟩ := CommandLine.exists_of_segments hwords hamp [] hne
  rw [List.map_nil, List.nil_append] at hl
  exact ⟨l, hl, hl ▸ htokens⟩

/-- A line without `&` that is executed to its end is executed as it is. -/
theorem intact_of_returns {s s' : Mem} {input : List Char} {calls : List Call}
    (hnul : '\x00' ∉ typed input) (hamp : "&".toList ∉ words isSep (typed input))
    (hret : Returns (round input) s calls s') : Intact (typed input) := by
  obtain ⟨line, -, hline, hfits, hne, -⟩ := (wp_round s input).returns hret
  obtain ⟨hlen, rfl⟩ := hline hnul
  rw [tokensOf_line, shown_eq_iff.2 (ampEqual_of_notMem hamp []), segmentsFrom_nil] at hne
  exact ⟨hnul, hlen, hfits, hne, ampEqual_of_notMem hamp []⟩

/-- The shell gets through a line without `&` if and only if its words are those of a command line,
whatever stands between them. There is only one such command line, its commands are what the shell
executes, and its normal form is no longer, has the same words and is executed alike. -/
theorem grammar_iff (s : Mem) {line : Str} (rest : List Char) (hnul : '\x00' ∉ line)
    (hline : '\n' ∉ line) (hamp : "&".toList ∉ words isSep line) :
    ((∃ calls s', Returns (round (line ++ '\n' :: rest)) s calls s') ↔
      line.length ≤ 1022 ∧
        ∃ l : CommandLine, l.tokens = words isSep line ∧ l.tokens.length < MAX_NUM_TOKENS) ∧
    ∀ l : CommandLine, l.tokens = words isSep line →
      (∀ l' : CommandLine, l'.tokens = words isSep line → l' = l) ∧
      words isSep l.render = words isSep line ∧ l.render.length ≤ line.length ∧
      ∀ calls s', Returns (round (line ++ '\n' :: rest)) s calls s' →
        calls.map Call.action = l.actions ∧
        ∃ calls' s'', Returns (round (l.render ++ '\n' :: rest)) s calls' s'' ∧
          calls'.map Call.action = l.actions := by
  have htyped : typed (line ++ '\n' :: rest) = line := typed_append hline rest
  refine ⟨⟨?_, ?_⟩, ?_⟩
  · rintro ⟨calls, s', hret⟩
    have hintact := intact_of_returns (htyped.symm ▸ hnul) (htyped.symm ▸ hamp) hret
    rw [htyped] at hintact
    exact ⟨hintact.length, hintact.exists_commandLine hamp⟩
  · rintro ⟨hlen, l, hl, htokens⟩
    have hintact := l.intact hnul hlen hl htokens
    rw [← htyped] at hintact
    obtain ⟨calls, s', hret, -⟩ := exists_round s hintact
    exact ⟨calls, s', hret⟩
  · intro l hl
    have hrender : l.render.length ≤ line.length := by
      rw [CommandLine.render, hl]
      exact length_intercalate_words ' ' line
    refine ⟨fun l' hl' => CommandLine.tokens_inj (hl'.trans hl.symm), l.words_render.trans hl,
      hrender, ?_⟩
    intro calls s' hret
    have hintact := intact_of_returns (htyped.symm ▸ hnul) (htyped.symm ▸ hamp) hret
    have hactions := (wp_round_actions s hintact).returns hret
    rw [htyped, ← hl, l.actionsOf_tokens] at hactions
    refine ⟨hactions, ?_⟩
    -- the normal form is a layout of the same command line
    rw [htyped] at hintact
    obtain ⟨-, htokens, -⟩ := (fits_line_iff line).1 hintact.fits
    have htyped' : typed (l.render ++ '\n' :: rest) = l.render :=
      typed_append (l.notMem_render (Or.inl rfl)) rest
    have hintact' := l.intact (l.notMem_render (Or.inr rfl)) (hrender.trans hintact.length)
      l.words_render.symm (hl ▸ htokens)
    rw [← htyped'] at hintact'
    obtain ⟨calls', s'', hret', hactions'⟩ := exists_round s hintact'
    rw [htyped', l.words_render, l.actionsOf_tokens] at hactions'
    exact ⟨calls', s'', hret', hactions'⟩

/-- A line with more than single blanks. -/
theorem grammar_iff_blanks : ∃ l : CommandLine, l.render = "ls && date".toList ∧
    words isSep l.render = words isSep "  ls  &&\tdate ".toList := by
  let word (text : Str) (h : text = "ls".toList ∨ text = "date".toList) : Word :=
    ⟨text, by rcases h with rfl | rfl <;> decide, by rcases h with rfl | rfl <;> simp [isSep],
      by rcases h with rfl | rfl <;> decide, by rcases h with rfl | rfl <;> decide,
      by rcases h with rfl | rfl <;> decide⟩
  let l : CommandLine := ⟨⟨word _ (Or.inl rfl), []⟩, [(.serial, ⟨word _ (Or.inr rfl), []⟩)]⟩
  exact ⟨l, rfl, ((grammar_iff .blank [] (by decide) (by decide) (by decide)).2 l rfl).2.1⟩

end Shell
