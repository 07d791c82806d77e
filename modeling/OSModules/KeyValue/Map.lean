/-
  The map that the server keeps: commands, what they do, and what they answer, from the history of
  commands and answers alone.
-/
import OSModules.Lib.CString
import OSModules.Lib.Runs

namespace KeyValue

open CString Runs

/-- A command whose words are as the server takes them. -/
inductive Command
  | create (key size : ℤ) (value : Str)
  | read (key : ℤ)
  | update (key size : ℤ) (value : Str)
  | delete (key : ℤ)
  | disconnect
  deriving DecidableEq

/-- The key of a command. -/
def Command.key : Command → Option ℤ
  | .create key _ _ | .read key | .update key _ _ | .delete key => some key
  | .disconnect => none

section
variable (wide : Str → Int32)

/-- The command that words spell, with any key. -/
def request : List Str → Option Command
  | [] => none
  | c :: args =>
    if c = "create".toList then
      match args with
      | k :: n :: v :: _ => some (.create (atoi wide k) (atoi wide n) v)
      | _ => none
    else if c = "read".toList then
      match args with
      | k :: _ => some (.read (atoi wide k))
      | _ => none
    else if c = "update".toList then
      match args with
      | k :: n :: v :: _ => some (.update (atoi wide k) (atoi wide n) v)
      | _ => none
    else if c = "delete".toList then
      match args with
      | k :: _ => some (.delete (atoi wide k))
      | _ => none
    else if c = "disconnect".toList then some .disconnect
    else none

/-- The command that words spell, with a key other than -1. -/
def command (ws : List Str) : Option Command :=
  (request wide ws).filter fun c => c.key ≠ some (-1)

/-- The words of a request. -/
inductive Asks : List Str → Command → Prop
  | create {k n v rest key size} : atoi wide k = key → atoi wide n = size →
      Asks ("create".toList :: k :: n :: v :: rest) (.create key size v)
  | read {k rest key} : atoi wide k = key → Asks ("read".toList :: k :: rest) (.read key)
  | update {k n v rest key size} : atoi wide k = key → atoi wide n = size →
      Asks ("update".toList :: k :: n :: v :: rest) (.update key size v)
  | delete {k rest key} : atoi wide k = key → Asks ("delete".toList :: k :: rest) (.delete key)
  | disconnect {rest} : Asks ("disconnect".toList :: rest) .disconnect

/-- The words of a command. -/
inductive Spells : List Str → Command → Prop
  | create {k n v rest key size} : atoi wide k = key → key ≠ -1 → atoi wide n = size →
      Spells ("create".toList :: k :: n :: v :: rest) (.create key size v)
  | read {k rest key} : atoi wide k = key → key ≠ -1 →
      Spells ("read".toList :: k :: rest) (.read key)
  | update {k n v rest key size} : atoi wide k = key → key ≠ -1 → atoi wide n = size →
      Spells ("update".toList :: k :: n :: v :: rest) (.update key size v)
  | delete {k rest key} : atoi wide k = key → key ≠ -1 →
      Spells ("delete".toList :: k :: rest) (.delete key)
  | disconnect {rest} : Spells ("disconnect".toList :: rest) .disconnect

end

section
variable {wide : Str → Int32} {ws : List Str} {c : Command}

theorem asks_of_request (h : request wide ws = some c) : Asks wide ws c := by
  unfold request at h
  split at h
  · cases h
  · split_ifs at h with hcreate hread hupdate hdelete hdisconnect
    · subst hcreate
      split at h
      · cases h
        exact .create rfl rfl
      · cases h
    · subst hread
      split at h
      · cases h
        exact .read rfl
      · cases h
    · subst hupdate
      split at h
      · cases h
        exact .update rfl rfl
      · cases h
    · subst hdelete
      split at h
      · cases h
        exact .delete rfl
      · cases h
    · subst hdisconnect
      cases h
      exact .disconnect

theorem Asks.request (h : Asks wide ws c) : request wide ws = some c := by
  cases h with
  | create hkey hsize => simp [KeyValue.request, hkey, hsize]
  | read hkey => simp [KeyValue.request, hkey]
  | update hkey hsize => simp [KeyValue.request, hkey, hsize]
  | delete hkey => simp [KeyValue.request, hkey]
  | disconnect => simp [KeyValue.request]

theorem spells_of_command (h : command wide ws = some c) : Spells wide ws c := by
  rw [command, Option.filter_eq_some_iff, decide_eq_true_eq] at h
  obtain ⟨hc, hkey⟩ := h
  have hne : ∀ {key : ℤ}, c.key = some key → key ≠ -1 := by
    rintro key hck rfl
    exact hkey hck
  cases asks_of_request hc with
  | create hk hn => exact .create hk (hne rfl) hn
  | read hk => exact .read hk (hne rfl)
  | update hk hn => exact .update hk (hne rfl) hn
  | delete hk => exact .delete hk (hne rfl)
  | disconnect => exact .disconnect

end

/-! ## Histories -/

/-- A command and its answer. -/
abbrev Event := Command × Str

/-- What a successful command leaves under the key `k`. -/
def written (k : ℤ) : Event → Option (Option Str)
  | (.create key _ v, answer) =>
    if key = k ∧ answer = "Key Value pair Added".toList then some (some v) else none
  | (.update key _ v, answer) => if key = k ∧ answer = "Updated".toList then some (some v) else none
  | (.delete key, answer) => if key = k ∧ answer = "Deleted key".toList then some none else none
  | _ => none

/-- The value of the latest successful `create` or `update` of the key that no successful `delete`
of it follows. -/
def latest (h : List Event) (k : ℤ) : Option Str := (h.reverse.findSome? (written k)).join

/-- The map after an event. -/
def after (m : ℤ → Option Str) (e : Event) (k : ℤ) : Option Str := (written k e).getD (m k)

/-- A `create` that succeeded. -/
def Created : Event → Prop
  | (.create _ _ _, answer) => answer = "Key Value pair Added".toList
  | _ => False

instance : DecidablePred Created
  | (.create _ _ _, _) => inferInstanceAs (Decidable (_ = _))
  | (.read _, _) | (.update _ _ _, _) | (.delete _, _) | (.disconnect, _) => isFalse id

/-- How many `create`s succeeded. -/
def created (h : List Event) : ℕ := h.countP (Created ·)

/-- The answer to a command, where the map is `m` and `n` `create`s succeeded. -/
def answer (m : ℤ → Option Str) (n : ℕ) : Command → Str
  | .create key _ _ =>
    if 20 ≤ n then "storage full".toList
    else if m key = none then "Key Value pair Added".toList
    else "already key exists".toList
  | .read key => (m key).getD "No such key".toList
  | .update key _ _ => if m key = none then "No such key".toList else "Updated".toList
  | .delete key => if m key = none then "No such key".toList else "Deleted key".toList
  | .disconnect => "disconnecting".toList

theorem latest_snoc (h : List Event) (e : Event) : latest (h ++ [e]) = after (latest h) e := by
  ext1 k
  rw [latest, List.reverse_append, List.reverse_singleton, List.singleton_append,
    List.findSome?_cons, after]
  cases hw : written k e <;> rfl

theorem created_snoc (h : List Event) (e : Event) :
    created (h ++ [e]) = created h + if Created e then 1 else 0 := by
  simp only [created, List.countP_append, List.countP_singleton, decide_eq_true_eq]

variable (m : ℤ → Option Str) {key size : ℤ} {v a : Str}

/-- Under its key, an event changes the map; elsewhere it does not. -/
theorem after_eq_update {e : Event} {x : Option Str}
    (he : ∀ k, written k e = if key = k then some x else none) :
    after m e = Function.update m key x := by
  ext1 k
  rw [after, he]
  by_cases hk : key = k
  · subst hk
    rw [if_pos rfl, Function.update_self]
    rfl
  · rw [if_neg hk, Function.update_of_ne (Ne.symm hk)]
    rfl

theorem answer_create (n : ℕ) : answer m n (.create key size v) =
    if 20 ≤ n then "storage full".toList
    else if m key = none then "Key Value pair Added".toList
    else "already key exists".toList := rfl

theorem answer_read (n : ℕ) : answer m n (.read key) = (m key).getD "No such key".toList := rfl

theorem answer_update (n : ℕ) : answer m n (.update key size v) =
    if m key = none then "No such key".toList else "Updated".toList := rfl

theorem answer_delete (n : ℕ) : answer m n (.delete key) =
    if m key = none then "No such key".toList else "Deleted key".toList := rfl

theorem created_create :
    Created (.create key size v, a) ↔ a = "Key Value pair Added".toList := Iff.rfl

theorem not_created_read : ¬ Created (.read key, a) := id

theorem not_created_update : ¬ Created (.update key size v, a) := id

theorem not_created_delete : ¬ Created (.delete key, a) := id

theorem not_created_disconnect : ¬ Created (.disconnect, a) := id

theorem after_create :
    after m (.create key size v, "Key Value pair Added".toList) = Function.update m key (some v) :=
  after_eq_update m fun _ => if_congr (and_iff_left rfl) rfl rfl

theorem after_update : after m (.update key size v, "Updated".toList) = Function.update m key (some v) :=
  after_eq_update m fun _ => if_congr (and_iff_left rfl) rfl rfl

theorem after_delete : after m (.delete key, "Deleted key".toList) = Function.update m key none :=
  after_eq_update m fun _ => if_congr (and_iff_left rfl) rfl rfl

theorem after_of_written {e : Event} (he : ∀ k, written k e = none) : after m e = m := by
  ext1 k
  rw [after, he]
  rfl

theorem after_create_of_ne (ha : a ≠ "Key Value pair Added".toList) :
    after m (.create key size v, a) = m :=
  after_of_written m fun _ => if_neg fun h => ha h.2

theorem after_update_of_ne (ha : a ≠ "Updated".toList) : after m (.update key size v, a) = m :=
  after_of_written m fun _ => if_neg fun h => ha h.2

theorem after_delete_of_ne (ha : a ≠ "Deleted key".toList) : after m (.delete key, a) = m :=
  after_of_written m fun _ => if_neg fun h => ha h.2

theorem after_read : after m (.read key, a) = m := after_of_written m fun _ => rfl

theorem after_disconnect : after m (.disconnect, a) = m := after_of_written m fun _ => rfl

end KeyValue
