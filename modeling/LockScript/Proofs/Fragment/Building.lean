import LockScript.Proofs.Fragment.RoundTrip
import LockScript.Proofs.Typing.Composition

/-!
What a name builds of its arguments.

A name and its arguments ask for one composition to be checked (`Head.Makes`), and so does a letter
with the fragment it is put around (`Letter.Makes`). What is built is what passes that check, so it
does not depend on where the arguments stand or what the name is called by (`Head.Makes.build_at`),
and it is deeper than the fragments among the arguments (`Head.Makes.mem_children`).
-/

namespace LockScript

/-! ## Arguments at other places -/

section Places

variable {s : Settings} {text : Bytes} {place place' : Nat}

theorem lockTime_at {lock : UInt32} (read : Arg.lockTime text place = .ok lock) :
    Arg.lockTime text place' = .ok lock := by
  unfold Arg.lockTime at read ⊢
  split at read
  · exact read
  · cases read

theorem threshold_at {k : Int} (read : Arg.threshold text place = .ok k) :
    Arg.threshold text place' = .ok k := by
  unfold Arg.threshold at read ⊢
  split at read
  · exact read
  · cases read

theorem digest_at {width : Nat} {d : Digest width} (read : Arg.digest width text place = .ok d) :
    Arg.digest width text place' = .ok d := by
  unfold Arg.digest at read ⊢
  split at read
  · cases read
  · split at read
    · cases read
    · next given found => simpa only [found] using read

theorem key_at {k : Key} (read : Arg.key s text place = .ok k) :
    Arg.key s text place' = .ok k := by
  unfold Arg.key at read ⊢
  split at read
  · next given => simpa only [given] using read
  · cases read

theorem keyHash_at {hash : Digest 20} (read : Arg.keyHash s text place = .ok hash) :
    Arg.keyHash s text place' = .ok hash := by
  unfold Arg.keyHash at read ⊢
  cases found : Arg.digest 20 text place with
  | ok own =>
    rw [found] at read
    rw [digest_at found]
    exact read
  | error e =>
    rw [found] at read
    obtain ⟨k, given, rfl⟩ := map_eq_ok_iff.1 read
    cases found' : Arg.digest 20 text place' with
    | ok own =>
      rw [digest_at found'] at found
      cases found
    | error e' => exact map_eq_ok_iff.2 ⟨k, key_at given, rfl⟩

theorem keys_at {args args' : List Arg} {keys : List Key}
    (same : args'.map Arg.item = args.map Arg.item) (read : Arg.keys s args = .ok keys) :
    Arg.keys s args' = .ok keys := by
  induction args generalizing args' keys with
  | nil =>
    obtain rfl := List.map_eq_nil_iff.1 same
    exact read
  | cons arg rest ih =>
    obtain ⟨arg', rest', rfl, first, others⟩ := List.map_eq_cons_iff.1 same
    cases arg with
    | word text place =>
      obtain ⟨place', rfl⟩ := Arg.item_eq_word first
      obtain ⟨k, given, read⟩ := bind_eq_ok_iff.1 read
      obtain ⟨ks, later, read⟩ := bind_eq_ok_iff.1 read
      exact bind_eq_ok_iff.2 ⟨k, key_at given, bind_eq_ok_iff.2 ⟨ks, ih others later, read⟩⟩
    | fragment x =>
      cases arg' with
      | word text place => cases first
      | fragment y =>
        have later := ih others read
        exact later

theorem fragments_at {args args' : List Arg} (same : args'.map Arg.item = args.map Arg.item) :
    Arg.fragments args' = Arg.fragments args := by
  induction args generalizing args' with
  | nil =>
    obtain rfl := List.map_eq_nil_iff.1 same
    rfl
  | cons arg rest ih =>
    obtain ⟨arg', rest', rfl, first, others⟩ := List.map_eq_cons_iff.1 same
    cases arg with
    | word text place =>
      obtain ⟨place', rfl⟩ := Arg.item_eq_word first
      have later := ih others
      exact later
    | fragment x =>
      cases arg' with
      | word text place => cases first
      | fragment y =>
        cases first
        rw [Arg.fragments, Arg.fragments, ih others]

end Places

theorem Arg.item_eq_fragment {a : Arg} {m : Checked} (same : a.item = .fragment m) :
    a = .fragment m := by
  cases a with
  | word text place => cases same
  | fragment x =>
    cases same
    rfl

/-! ## What a name makes -/

/-- What a letter asks to be checked around a fragment. -/
inductive Letter.Makes (limit : Int) (x : Checked) : Letter → Composition → Prop
  | wrapper (w : Wrapper) : Makes limit x (.wrapper w) (.wrap w x)
  | thenOne {one : Checked} (added : Checked.leaf limit .one = .ok one) :
    Makes limit x .thenOne (.pair .andV x one)
  | orZero {zero : Checked} (added : Checked.leaf limit .zero = .ok zero) :
    Makes limit x .orZero (.pair .orI x zero)
  | zeroOr {zero : Checked} (added : Checked.leaf limit .zero = .ok zero) :
    Makes limit x .zeroOr (.pair .orI zero x)

/-- What a name asks to be checked for its arguments. -/
inductive Head.Makes (s : Settings) : Head → List Arg → Composition → Prop
  | zero : Makes s .zero [] (.leaf .zero)
  | one : Makes s .one [] (.leaf .one)
  | pk {text : Bytes} {place : Nat} {key : Key} (read : Arg.key s text place = .ok key) :
    Makes s .pk [.word text place] (.leaf (.pk key))
  | pkHash {text : Bytes} {place : Nat} {hash : Digest 20}
    (read : Arg.keyHash s text place = .ok hash) :
    Makes s .pkHash [.word text place] (.leaf (.pkHash hash))
  | after {text : Bytes} {place : Nat} {lock : UInt32}
    (read : Arg.lockTime text place = .ok lock) :
    Makes s .after [.word text place] (.leaf (.after lock))
  | older {text : Bytes} {place : Nat} {lock : UInt32}
    (read : Arg.lockTime text place = .ok lock) :
    Makes s .older [.word text place] (.leaf (.older lock))
  | hashLock {f : HashFunction} {text : Bytes} {place : Nat} {image : Digest f.width}
    (read : Arg.digest f.width text place = .ok image) :
    Makes s (.hashLock f) [.word text place] (.leaf (.hashLock f image))
  | pair {op : Combinator} {x y : Checked} (canonical : ¬ (op = .andV ∧ y.fragment.isOne)) :
    Makes s (.pair op) [.fragment x, .fragment y] (.pair op x y)
  | andN {x y zero : Checked} (added : Checked.leaf s.limit .zero = .ok zero) :
    Makes s .andN [.fragment x, .fragment y] (.andor x y zero)
  | andor {x y z : Checked} :
    Makes s .andor [.fragment x, .fragment y, .fragment z] (.andor x y z)
  | thresh {text : Bytes} {place : Nat} {sub : Arg} {subs : List Arg} {k : Int}
    (read : Arg.threshold text place = .ok k) :
    Makes s .thresh (.word text place :: sub :: subs) (.thresh k (Arg.fragments (sub :: subs)))
  | multi {text : Bytes} {place : Nat} {word : Arg} {words : List Arg} {k : Int} {keys : List Key}
    (few : ¬ words.length + 1 > maxMultiKeys) (read : Arg.threshold text place = .ok k)
    (found : Arg.keys s (word :: words) = .ok keys) :
    Makes s .multi (.word text place :: word :: words) (.leaf (.multi k keys))
  | letter {l : Letter} {x : Checked} {t : Composition} (around : l.Makes s.limit x t) :
    Makes s (.letter l) [.fragment x] t

theorem applyLetter_eq_ok_iff {limit : Int} {l : Letter} {letterOffset offset : Nat}
    {x m : Checked} : applyLetter limit l letterOffset offset x = .ok m ↔
      ∃ t, l.Makes limit x t ∧ t.check limit = .ok m := by
  constructor
  · intro made
    cases l with
    | wrapper w => exact ⟨_, .wrapper w, located_eq_ok_iff.1 made⟩
    | thenOne =>
      obtain ⟨one, added, made⟩ := bind_eq_ok_iff.1 made
      exact ⟨_, .thenOne (located_eq_ok_iff.1 added), located_eq_ok_iff.1 made⟩
    | orZero =>
      obtain ⟨zero, added, made⟩ := bind_eq_ok_iff.1 made
      exact ⟨_, .orZero (located_eq_ok_iff.1 added), located_eq_ok_iff.1 made⟩
    | zeroOr =>
      obtain ⟨zero, added, made⟩ := bind_eq_ok_iff.1 made
      exact ⟨_, .zeroOr (located_eq_ok_iff.1 added), located_eq_ok_iff.1 made⟩
  · intro ⟨t, makes, checked⟩
    cases makes with
    | wrapper w => exact located_eq_ok_iff.2 checked
    | thenOne added =>
      exact bind_eq_ok_iff.2 ⟨_, located_eq_ok_iff.2 added, located_eq_ok_iff.2 checked⟩
    | orZero added =>
      exact bind_eq_ok_iff.2 ⟨_, located_eq_ok_iff.2 added, located_eq_ok_iff.2 checked⟩
    | zeroOr added =>
      exact bind_eq_ok_iff.2 ⟨_, located_eq_ok_iff.2 added, located_eq_ok_iff.2 checked⟩

/-- What was built was asked to be checked, and passed. -/
theorem exists_makes_of_build {s : Settings} {head : Head} {name : Bytes} {offset : Nat}
    {args : List Arg} {m : Checked} (built : build s head name offset args = .ok m) :
    ∃ t, head.Makes s args t ∧ t.check s.limit = .ok m := by
  cases head with
  | zero =>
    simp only [build] at built
    split at built
    · exact ⟨_, .zero, located_eq_ok_iff.1 built⟩
    · cases built
  | one =>
    simp only [build] at built
    split at built
    · exact ⟨_, .one, located_eq_ok_iff.1 built⟩
    · cases built
  | pk =>
    simp only [build] at built
    split at built
    · obtain ⟨key, read, built⟩ := bind_eq_ok_iff.1 built
      exact ⟨_, .pk read, located_eq_ok_iff.1 built⟩
    · cases built
  | pkHash =>
    simp only [build] at built
    split at built
    · obtain ⟨hash, read, built⟩ := bind_eq_ok_iff.1 built
      exact ⟨_, .pkHash read, located_eq_ok_iff.1 built⟩
    · cases built
  | after =>
    simp only [build] at built
    split at built
    · obtain ⟨lock, read, built⟩ := bind_eq_ok_iff.1 built
      exact ⟨_, .after read, located_eq_ok_iff.1 built⟩
    · cases built
  | older =>
    simp only [build] at built
    split at built
    · obtain ⟨lock, read, built⟩ := bind_eq_ok_iff.1 built
      exact ⟨_, .older read, located_eq_ok_iff.1 built⟩
    · cases built
  | hashLock f =>
    simp only [build] at built
    split at built
    · obtain ⟨image, read, built⟩ := bind_eq_ok_iff.1 built
      exact ⟨_, .hashLock read, located_eq_ok_iff.1 built⟩
    · cases built
  | pair op =>
    simp only [build] at built
    split at built
    · split at built
      · cases built
      · next canonical => exact ⟨_, .pair canonical, located_eq_ok_iff.1 built⟩
    · cases built
  | andN =>
    simp only [build] at built
    split at built
    · obtain ⟨zero, added, built⟩ := bind_eq_ok_iff.1 built
      exact ⟨_, .andN (located_eq_ok_iff.1 added), located_eq_ok_iff.1 built⟩
    · cases built
  | andor =>
    simp only [build] at built
    split at built
    · exact ⟨_, .andor, located_eq_ok_iff.1 built⟩
    · cases built
  | thresh =>
    simp only [build] at built
    split at built
    · obtain ⟨k, read, built⟩ := bind_eq_ok_iff.1 built
      exact ⟨_, .thresh read, located_eq_ok_iff.1 built⟩
    · cases built
  | multi =>
    simp only [build] at built
    split at built
    · split at built
      · cases built
      · next few =>
        obtain ⟨k, read, built⟩ := bind_eq_ok_iff.1 built
        obtain ⟨keys, found, built⟩ := bind_eq_ok_iff.1 built
        exact ⟨_, .multi few read found, located_eq_ok_iff.1 built⟩
    · cases built
  | letter l =>
    simp only [build] at built
    split at built
    · obtain ⟨t, around, checked⟩ := applyLetter_eq_ok_iff.1 built
      exact ⟨t, .letter around, checked⟩
    · cases built

/-- Arguments that were read elsewhere build the same, under whatever name and wherever. -/
theorem Head.Makes.build_at {s : Settings} {head : Head} {args args' : List Arg} {t : Composition}
    {m : Checked} (makes : head.Makes s args t) (checked : t.check s.limit = .ok m)
    (same : args'.map Arg.item = args.map Arg.item) (name : Bytes) (offset : Nat) :
    build s head name offset args' = .ok m := by
  have made : located offset (t.check s.limit) = .ok m := located_eq_ok_iff.2 checked
  -- A name that takes one word has it in another place.
  have alone {text : Bytes} {place : Nat} (single : args = [.word text place]) :
      ∃ place', args' = [.word text place'] := by
    rw [single] at same
    obtain ⟨arg, rest, rfl, first, others⟩ := List.map_eq_cons_iff.1 same
    obtain ⟨place', rfl⟩ := Arg.item_eq_word first
    obtain rfl := List.map_eq_nil_iff.1 others
    exact ⟨place', rfl⟩
  cases makes with
  | zero =>
    obtain rfl := List.map_eq_nil_iff.1 same
    exact made
  | one =>
    obtain rfl := List.map_eq_nil_iff.1 same
    exact made
  | pk read =>
    obtain ⟨place', rfl⟩ := alone rfl
    exact bind_eq_ok_iff.2 ⟨_, key_at read, made⟩
  | pkHash read =>
    obtain ⟨place', rfl⟩ := alone rfl
    exact bind_eq_ok_iff.2 ⟨_, keyHash_at read, made⟩
  | after read =>
    obtain ⟨place', rfl⟩ := alone rfl
    exact bind_eq_ok_iff.2 ⟨_, lockTime_at read, made⟩
  | older read =>
    obtain ⟨place', rfl⟩ := alone rfl
    exact bind_eq_ok_iff.2 ⟨_, lockTime_at read, made⟩
  | hashLock read =>
    obtain ⟨place', rfl⟩ := alone rfl
    exact bind_eq_ok_iff.2 ⟨_, digest_at read, made⟩
  | @pair op x y canonical =>
    obtain rfl := Arg.eq_fragments [x, y] same
    exact (if_neg canonical).trans made
  | @andN x y zero added =>
    obtain rfl := Arg.eq_fragments [x, y] same
    exact bind_eq_ok_iff.2 ⟨zero, located_eq_ok_iff.2 added, made⟩
  | @andor x y z =>
    obtain rfl := Arg.eq_fragments [x, y, z] same
    exact made
  | thresh read =>
    obtain ⟨arg, rest, rfl, first, others⟩ := List.map_eq_cons_iff.1 same
    obtain ⟨place', rfl⟩ := Arg.item_eq_word first
    rw [← fragments_at others] at made
    obtain ⟨sub', subs', rfl, -, -⟩ := List.map_eq_cons_iff.1 others
    exact bind_eq_ok_iff.2 ⟨_, threshold_at read, made⟩
  | multi few read found =>
    obtain ⟨arg, rest, rfl, first, others⟩ := List.map_eq_cons_iff.1 same
    obtain ⟨place', rfl⟩ := Arg.item_eq_word first
    have found' := keys_at others found
    obtain ⟨word', words', rfl, -, later⟩ := List.map_eq_cons_iff.1 others
    have length := congrArg List.length later
    rw [List.length_map, List.length_map] at length
    rw [← length] at few
    refine (if_neg few).trans ?_
    exact bind_eq_ok_iff.2 ⟨_, threshold_at read, bind_eq_ok_iff.2 ⟨_, found', made⟩⟩
  | @letter l x t around =>
    obtain rfl := Arg.eq_fragments [x] same
    exact applyLetter_eq_ok_iff.2 ⟨t, around, checked⟩

theorem mem_fragments {x : Checked} {args : List Arg} (member : .fragment x ∈ args) :
    x ∈ Arg.fragments args := by
  induction args with
  | nil => cases member
  | cons arg rest ih =>
    rcases List.mem_cons.1 member with rfl | later
    · exact List.mem_cons_self
    · cases arg with
      | word text place => exact ih later
      | fragment y => exact List.mem_cons_of_mem _ (ih later)

theorem Letter.Makes.mem_children {limit : Int} {l : Letter} {x : Checked} {t : Composition}
    (makes : l.Makes limit x t) : x.fragment ∈ t.fragment.children := by
  cases makes with
  | wrapper w => exact List.mem_singleton_self _
  | thenOne added => exact List.mem_cons_self
  | orZero added => exact List.mem_cons_self
  | zeroOr added => exact List.mem_cons_of_mem _ (List.mem_singleton_self _)

/-- The fragments among the arguments of a name that takes fragments are parts of what it makes. -/
theorem Head.Makes.mem_children {s : Settings} {head : Head} {args : List Arg} {t : Composition}
    (makes : head.Makes s args t) {index : Nat} (takes : head.shape.kind? index = some .fragment)
    {x : Checked} (member : .fragment x ∈ args) : x.fragment ∈ t.fragment.children := by
  cases makes with
  | zero => cases member
  | one => cases member
  | multi few read found => cases index <;> cases takes
  | pair canonical =>
    rcases (by simpa using member : x = _ ∨ x = _) with rfl | rfl
    · simp [Composition.fragment, Fragment.children]
    · simp [Composition.fragment, Fragment.children]
  | andN added =>
    rcases (by simpa using member : x = _ ∨ x = _) with rfl | rfl
    · simp [Composition.fragment, Fragment.children]
    · simp [Composition.fragment, Fragment.children]
  | andor =>
    rcases (by simpa using member : x = _ ∨ x = _ ∨ x = _) with rfl | rfl | rfl
    · simp [Composition.fragment, Fragment.children]
    · simp [Composition.fragment, Fragment.children]
    · simp [Composition.fragment, Fragment.children]
  | thresh read =>
    have inside := mem_fragments member
    exact List.mem_map_of_mem inside
  | letter around =>
    obtain rfl : x = _ := by simpa using member
    exact around.mem_children
  | _ read => simp at member

/-! ## Letters at other places -/

theorem applyLetters_at {limit : Int} {offset index offset' index' : Nat} {letters : Bytes}
    {core m : Checked} (made : applyLetters limit offset index letters core = .ok m) :
    applyLetters limit offset' index' letters core = .ok m := by
  induction letters generalizing index index' m with
  | nil => exact made
  | cons b rest ih =>
    obtain ⟨inner, wrapped, made⟩ := bind_eq_ok_iff.1 made
    refine bind_eq_ok_iff.2 ⟨inner, ih wrapped, ?_⟩
    split at made
    · cases made
    · exact applyLetter_eq_ok_iff.2 (applyLetter_eq_ok_iff.1 made)

theorem depth_le_of_applyLetters {limit : Int} {offset index : Nat} {letters : Bytes}
    {core m : Checked} (made : applyLetters limit offset index letters core = .ok m) :
    core.fragment.depth ≤ m.fragment.depth := by
  induction letters generalizing index m with
  | nil =>
    cases made
    exact Nat.le_refl _
  | cons b rest ih =>
    obtain ⟨inner, wrapped, made⟩ := bind_eq_ok_iff.1 made
    split at made
    · cases made
    · obtain ⟨t, around, checked⟩ := applyLetter_eq_ok_iff.1 made
      have deeper := Fragment.depth_lt_of_child around.mem_children
      rw [← (Composition.check_eq_ok checked).2] at deeper
      exact (ih wrapped).trans (Nat.le_of_lt deeper)

end LockScript
