import LockScript.Fragment.Substitution
import LockScript.Proofs.Decoder.Rules
import LockScript.Proofs.Fragment.Renaming
import LockScript.Proofs.Fragment.RoundTrip

/-!
Replacing keys is renaming them.

Keys are looked up in the order in which the keys of a fragment are listed, and the first one without
a replacement ends the substitution (`onceFound`). If all of them have one, the result is the renamed
fragment: its facts and its depth are those of the fragment before, so that no check can fail
(`Checked.substitute_eq`).
-/

namespace LockScript

namespace Fragment

variable {ε α β : Type} {lookup : Key → Except ε Key}

/-- The value, once all keys have been looked up; the failure of the first one that has no
replacement. -/
def onceFound (lookup : Key → Except ε Key) (value : α) : List Key → Except (SubstitutionError ε) α
  | [] => .ok value
  | key :: rest => match lookup key with
    | .ok _ => onceFound lookup value rest
    | .error reason => .error (.lookup reason)

/-- The replacement of a key; a key that has none stays. -/
def replacement (lookup : Key → Except ε Key) (key : Key) : Key :=
  match lookup key with
  | .ok k => k
  | .error _ => key

/-! ## Looking up keys -/

theorem onceFound_cons_ok {x : α} {key k : Key} {rest : List Key} (found : lookup key = .ok k) :
    onceFound lookup x (key :: rest) = onceFound lookup x rest := by
  rw [onceFound, found]

theorem onceFound_cons_error {x : α} {key : Key} {rest : List Key} {reason : ε}
    (failed : lookup key = .error reason) :
    onceFound lookup x (key :: rest) = .error (.lookup reason) := by
  rw [onceFound, failed]

theorem replacement_eq {key k : Key} (found : lookup key = .ok k) :
    replacement lookup key = k := by
  rw [replacement, found]

/-- Lookups that follow each other are one. -/
theorem onceFound_bind {x : α} {y : β} {next : α → Except (SubstitutionError ε) β}
    {before after : List Key} (goesOn : next x = onceFound lookup y after) :
    onceFound lookup x before >>= next = onceFound lookup y (before ++ after) := by
  induction before with
  | nil => exact goesOn
  | cons key rest ih =>
    cases found : lookup key with
    | ok k =>
      rw [onceFound_cons_ok found, List.cons_append, onceFound_cons_ok found]
      exact ih
    | error reason =>
      rw [onceFound_cons_error found, List.cons_append, onceFound_cons_error found]
      rfl

theorem onceFound_bind_ok {x : α} {y : β} {next : α → Except (SubstitutionError ε) β}
    {keys : List Key} (goesOn : next x = .ok y) :
    onceFound lookup x keys >>= next = onceFound lookup y keys := by
  have bound : onceFound lookup x keys >>= next = onceFound lookup y (keys ++ []) :=
    onceFound_bind goesOn
  rw [List.append_nil] at bound
  exact bound

theorem onceFound_eq_ok_iff {x y : α} {keys : List Key} :
    onceFound lookup x keys = .ok y ↔ (∀ key ∈ keys, ∃ k, lookup key = .ok k) ∧ x = y := by
  induction keys with
  | nil => simp [onceFound]
  | cons key rest ih =>
    rw [List.forall_mem_cons]
    cases found : lookup key with
    | ok k =>
      rw [onceFound_cons_ok found, ih]
      simp
    | error reason =>
      rw [onceFound_cons_error found]
      simp

/-- The value only matters if every key has a replacement. -/
theorem onceFound_congr {x y : α} {keys : List Key}
    (same : (∀ key ∈ keys, ∃ k, lookup key = .ok k) → x = y) :
    onceFound lookup x keys = onceFound lookup y keys := by
  induction keys with
  | nil => exact congrArg Except.ok (same (List.forall_mem_nil _))
  | cons key rest ih =>
    cases found : lookup key with
    | ok k =>
      rw [onceFound_cons_ok found, onceFound_cons_ok found]
      exact ih fun others => same (List.forall_mem_cons.2 ⟨⟨k, found⟩, others⟩)
    | error reason => rw [onceFound_cons_error found, onceFound_cons_error found]

/-- The first key without a replacement is the one that counts. -/
theorem onceFound_eq_error {x : α} {before after : List Key} {key : Key} {reason : ε}
    (found : ∀ k ∈ before, ∃ k', lookup k = .ok k') (failed : lookup key = .error reason) :
    onceFound lookup x (before ++ key :: after) = .error (.lookup reason) := by
  induction before with
  | nil => exact onceFound_cons_error failed
  | cons k rest ih =>
    obtain ⟨⟨k', first⟩, others⟩ := List.forall_mem_cons.1 found
    rw [List.cons_append, onceFound_cons_ok first]
    exact ih others

/-- Looking up what was found is looking up in two steps. -/
theorem onceFound_map {x : α} {f g : Key → Except ε Key} {keys : List Key}
    (found : ∀ key ∈ keys, ∃ k, f key = .ok k) :
    onceFound g x (keys.map (replacement f)) = onceFound (fun key => f key >>= g) x keys := by
  induction keys with
  | nil => rfl
  | cons key rest ih =>
    obtain ⟨⟨k, first⟩, others⟩ := List.forall_mem_cons.1 found
    have both : (f key >>= g) = g k := by
      rw [first]
      rfl
    rw [List.map_cons, replacement_eq first]
    cases again : g k with
    | ok k' => rw [onceFound_cons_ok again, onceFound_cons_ok (both.trans again), ih others]
    | error reason => rw [onceFound_cons_error again, onceFound_cons_error (both.trans again)]

/-! ## Replacing keys -/

theorem replaceKey_eq (key : Key) :
    replaceKey lookup key = onceFound lookup (replacement lookup key) [key] := by
  cases found : lookup key <;> simp [replaceKey, onceFound, replacement, found]

theorem replaceKeys_eq (keys : List Key) :
    replaceKeys lookup keys = onceFound lookup (keys.map (replacement lookup)) keys := by
  induction keys with
  | nil => rfl
  | cons key rest ih =>
    rw [replaceKeys, replaceKey_eq, ih]
    apply onceFound_bind
    apply onceFound_bind_ok
    rfl

theorem rechecked_eq_ok {made : Except Error Checked} {m : Checked} (accepted : made = .ok m) :
    (rechecked made : Except (SubstitutionError ε) Checked) = .ok m := by
  rw [accepted, rechecked]

theorem substitute_leaf {l : Leaf} {m : Checked}
    (same : m.fragment = .leaf (l.renamed (replacement lookup)))
    (shallow : (m.fragment.depth : Int) ≤ defaultLimit) :
    (leaf l).substitute lookup = onceFound lookup m l.keys := by
  rw [same] at shallow
  have made : rechecked _ = (.ok m : Except (SubstitutionError ε) Checked) :=
    rechecked_eq_ok (Checked.leaf_eq_ok_iff.2 ⟨shallow, same⟩)
  cases l with
  | pk key =>
    rw [substitute, replaceKey_eq]
    exact onceFound_bind_ok made
  | multi k keys =>
    rw [substitute, replaceKeys_eq]
    exact onceFound_bind_ok made
  | _ => exact made

theorem substituteAll_eq {subs : List Fragment} {ms : List Checked}
    (each : List.Forall₂ (fun x m => x.substitute lookup = onceFound lookup m x.keys) subs ms) :
    substituteAll lookup subs = onceFound lookup ms (keysOf subs) := by
  induction each with
  | nil => rfl
  | cons first others ih =>
    rw [substituteAll, keysOf, first, ih]
    apply onceFound_bind
    apply onceFound_bind_ok
    rfl

theorem exists_part {f x : Fragment} {m : Checked} (same : m.fragment = f)
    (shallow : (m.fragment.depth : Int) ≤ defaultLimit) (child : x ∈ f.children) :
    ∃ mx : Checked, mx.fragment = x ∧ (mx.fragment.depth : Int) ≤ defaultLimit := by
  subst same
  obtain ⟨facts, typed⟩ := exists_facts?_of_child m.typed child
  have less := depth_lt_of_child child
  refine ⟨⟨x, facts, typed⟩, rfl, ?_⟩
  change (x.depth : Int) ≤ defaultLimit
  omega

/-- Substitution gives the renamed fragment, if that has facts, as far as there are replacements. -/
theorem substitute_eq {f : Fragment} {m : Checked}
    (same : m.fragment = f.renamed (replacement lookup))
    (shallow : (m.fragment.depth : Int) ≤ defaultLimit) :
    f.substitute lookup = onceFound lookup m f.keys := by
  induction f generalizing m with
  | leaf l => exact substitute_leaf same shallow
  | wrap w x ih =>
    rw [renamed] at same
    obtain ⟨mx, hx, deep⟩ := exists_part same shallow List.mem_cons_self
    rw [← hx] at same
    rw [same] at shallow
    rw [substitute, keys, ih hx deep]
    apply onceFound_bind_ok
    exact rechecked_eq_ok (Checked.wrap_eq_ok_iff.2 ⟨shallow, same⟩)
  | pair op x y ihx ihy =>
    rw [renamed] at same
    have part {z : Fragment} := exists_part (x := z) same shallow
    obtain ⟨mx, hx, deepx⟩ := part (mem_children_pair.2 (.inl rfl))
    obtain ⟨my, hy, deepy⟩ := part (mem_children_pair.2 (.inr rfl))
    rw [← hx, ← hy] at same
    rw [same] at shallow
    rw [substitute, keys, ihx hx deepx, ihy hy deepy]
    apply onceFound_bind
    apply onceFound_bind_ok
    exact rechecked_eq_ok (Checked.pair_eq_ok_iff.2 ⟨shallow, same⟩)
  | andor x y z ihx ihy ihz =>
    rw [renamed] at same
    have part {t : Fragment} := exists_part (x := t) same shallow
    obtain ⟨mx, hx, deepx⟩ := part (mem_children_andor.2 (.inl rfl))
    obtain ⟨my, hy, deepy⟩ := part (mem_children_andor.2 (.inr (.inl rfl)))
    obtain ⟨mz, hz, deepz⟩ := part (mem_children_andor.2 (.inr (.inr rfl)))
    rw [← hx, ← hy, ← hz] at same
    rw [same] at shallow
    rw [substitute, keys, List.append_assoc, ihx hx deepx, ihy hy deepy, ihz hz deepz]
    apply onceFound_bind
    apply onceFound_bind
    apply onceFound_bind_ok
    exact rechecked_eq_ok (Checked.andor_eq_ok_iff.2 ⟨shallow, same⟩)
  | thresh k subs ih =>
    rw [renamed_thresh] at same
    obtain ⟨ms, parts, deep⟩ := exists_parts fun x member => exists_part (x := x) same shallow member
    rw [children] at parts
    rw [← parts] at same
    rw [same] at shallow
    have whole : List.Forall₂ (· = ·) (subs.map (renamed (replacement lookup)))
        (ms.map Checked.fragment) := by
      rw [parts, List.forall₂_eq_eq_eq]
    have each := List.forall₂_map_right_iff.1 (List.forall₂_map_left_iff.1 whole)
    have replaced := substituteAll_eq <| forall₂_of_mem each fun x member mx inside renamed =>
      ih x member renamed.symm (deep mx inside)
    rw [substitute, keys, replaced]
    apply onceFound_bind_ok
    exact rechecked_eq_ok (Checked.thresh_eq_ok_iff.2 ⟨shallow, same⟩)

end Fragment

/-! ## Substitution in checked fragments -/

namespace Checked

open Fragment (onceFound onceFound_map onceFound_eq_ok_iff onceFound_eq_error replacement
  replacement_eq)

variable {ε : Type} {m m' : Checked} {lookup f g : Key → Except ε Key}

theorem substitute_eq (shallow : (m.fragment.depth : Int) ≤ defaultLimit) :
    m.fragment.substitute lookup =
      onceFound lookup (m.renamed (replacement lookup)) m.fragment.keys := by
  apply Fragment.substitute_eq rfl
  rw [renamed, Fragment.depth_renamed]
  exact shallow

theorem substitute_eq_ok (shallow : (m.fragment.depth : Int) ≤ defaultLimit) {rename : Key → Key}
    (found : ∀ key ∈ m.fragment.keys, lookup key = .ok (rename key)) :
    m.fragment.substitute lookup = .ok (m.renamed rename) := by
  rw [substitute_eq shallow]
  apply onceFound_eq_ok_iff.2
  refine ⟨fun key member => ⟨rename key, found key member⟩, eq_of_fragment_eq ?_⟩
  exact Fragment.renamed_congr fun key member => replacement_eq (found key member)

/-- If there is a replacement for every key, then keys are replaced in two steps as in one, and the
second step fails as the two together do. -/
theorem substitute_substitute (shallow : (m.fragment.depth : Int) ≤ defaultLimit)
    (first : m.fragment.substitute f = .ok m') :
    m'.fragment.substitute g = m.fragment.substitute fun key => f key >>= g := by
  rw [substitute_eq shallow] at first
  obtain ⟨found, rfl⟩ := onceFound_eq_ok_iff.1 first
  have deep : ((m.renamed (replacement f)).fragment.depth : Int) ≤ defaultLimit := by
    rw [renamed, Fragment.depth_renamed]
    exact shallow
  have keys : (m.renamed (replacement f)).fragment.keys = m.fragment.keys.map (replacement f) :=
    Fragment.keys_renamed m.fragment
  rw [substitute_eq deep, substitute_eq shallow, keys, onceFound_map found]
  apply Fragment.onceFound_congr
  intro both
  apply eq_of_fragment_eq
  change (m.fragment.renamed (replacement f)).renamed (replacement g) = m.fragment.renamed _
  rw [Fragment.renamed_renamed]
  apply Fragment.renamed_congr
  intro key member
  obtain ⟨k, one⟩ := found key member
  obtain ⟨k', two⟩ := both key member
  have again : g k = .ok k' := by
    rw [one] at two
    exact two
  rw [replacement_eq one, replacement_eq again, replacement_eq two]

theorem substitute_fails (shallow : (m.fragment.depth : Int) ≤ defaultLimit)
    {e : SubstitutionError ε} (failed : m.fragment.substitute f = .error e) :
    ∃ e', m.fragment.substitute (fun key => f key >>= g) = .error e' := by
  cases both : m.fragment.substitute (fun key => f key >>= g) with
  | error e' => exact ⟨e', rfl⟩
  | ok m' =>
    -- what is replaced in two steps is replaced in the first one
    rw [substitute_eq shallow] at both failed
    have found : ∀ key ∈ m.fragment.keys, ∃ k, f key = .ok k := by
      intro key member
      obtain ⟨k', two⟩ := (onceFound_eq_ok_iff.1 both).1 key member
      obtain ⟨k, one, -⟩ := bind_eq_ok_iff.1 two
      exact ⟨k, one⟩
    rw [onceFound_eq_ok_iff.2 ⟨found, rfl⟩] at failed
    cases failed

/-- Substitution does nothing but replace keys: the first key without a replacement, in the order of
the keys, is the reason for which it fails. Otherwise the fragment keeps its shape, its type, its cost
and its depth, and each key gives way to its replacement. Nothing changes if every key replaces
itself, and replacements can be made in two steps as in one. -/
theorem substitute_only_renames (m : Checked)
    (shallow : (m.fragment.depth : Int) ≤ defaultLimit) :
    (∀ (lookup : Key → Except ε Key) before key after reason,
      m.fragment.keys = before ++ key :: after → (∀ k ∈ before, ∃ k', lookup k = .ok k') →
      lookup key = .error reason → m.fragment.substitute lookup = .error (.lookup reason)) ∧
    (∀ (lookup : Key → Except ε Key) (rename : Key → Key),
      (∀ key ∈ m.fragment.keys, lookup key = .ok (rename key)) →
      ∃ m', m.fragment.substitute lookup = .ok m' ∧ m'.fragment = m.fragment.renamed rename ∧
        m'.type = m.type ∧ m'.cost = m.cost ∧ m'.fragment.depth = m.fragment.depth ∧
        m'.fragment.keys = m.fragment.keys.map rename) ∧
    m.fragment.substitute (fun key => (.ok key : Except ε Key)) = .ok m ∧
    (∀ (f g : Key → Except ε Key) m', m.fragment.substitute f = .ok m' →
      m'.fragment.substitute g = m.fragment.substitute fun key => f key >>= g) ∧
    ∀ (f g : Key → Except ε Key) e, m.fragment.substitute f = .error e →
      ∃ e', m.fragment.substitute (fun key => f key >>= g) = .error e' := by
  refine ⟨?_, ?_, ?_, ?_, ?_⟩
  · intro lookup before key after reason keys found failed
    rw [substitute_eq shallow, keys]
    exact onceFound_eq_error found failed
  · intro lookup rename found
    exact ⟨m.renamed rename, substitute_eq_ok shallow found, rfl, rfl, rfl,
      Fragment.depth_renamed m.fragment, Fragment.keys_renamed m.fragment⟩
  · rw [substitute_eq_ok shallow fun key _ => rfl]
    exact congrArg Except.ok (eq_of_fragment_eq (Fragment.renamed_id m.fragment))
  · intro f g m'
    exact substitute_substitute shallow
  · intro f g e failed
    exact substitute_fails shallow failed

/-- `or_d(thresh_m(1,A,B),and_v(v:c:pk(C),older(10)))`. -/
def entrusted : Checked where
  fragment := .pair .orD (.leaf (.multi 1 [.named [0x41], .named [0x42]]))
    (.pair .andV (.wrap .verify (.wrap .check (.leaf (.pk (.named [0x43]))))) (.leaf (.older 10)))
  facts := ⟨⟨⟨.B, .any, false, false⟩, ⟨.none, true, true⟩⟩,
    ⟨.safe, 111, false, 6, some 8, none⟩⟩
  typed := by rfl

/-- Only `A` can be replaced; a key that cannot is the reason itself. -/
def onlyFirst (key : Key) : Except Key Key :=
  if key = .named [0x41] then .ok (.point Point.generator) else .error key

theorem substitute_only_renames_entrusted :
    (entrusted.fragment.depth : Int) ≤ defaultLimit ∧
    entrusted.fragment.substitute onlyFirst = .error (.lookup (.named [0x42])) ∧
    entrusted.fragment.substitute (fun key => (.ok key : Except Key Key)) = .ok entrusted := by
  have shallow : (entrusted.fragment.depth : Int) ≤ defaultLimit := by decide
  obtain ⟨fails, -, unchanged, -⟩ := @substitute_only_renames Key entrusted shallow
  refine ⟨shallow, ?_, unchanged⟩
  apply fails onlyFirst [.named [0x41]] (.named [0x42]) [.named [0x43]] _ rfl
  · exact List.forall_mem_singleton.2 ⟨_, rfl⟩
  · rfl

end Checked

end LockScript
