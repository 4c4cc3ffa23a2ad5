import LockScript.Proofs.Decoder.Rules
import Mathlib.Data.List.Nodup

/-!
The order of the keys.

The keys of a fragment are listed part by part, in the order in which the parts are written. Its
script has the parts in that order too, except for `andor(X,Y,Z)`, which is X NOTIF Z ELSE Y ENDIF.
So what a script pushes are the keys of the fragment in which the last two parts of every `andor`
are exchanged (`Fragment.read_instructions`). These are always the same keys. They come in the order
of the list if no `andor` has keys in both of the parts exchanged, and if the keys are all different
then only so (`Fragment.oneSided_of_keys_exchanged`).
-/

namespace LockScript

/-- The key that an instruction pushes. -/
def Instruction.key? : Instruction → Option Key
  | .key k => some k
  | _ => none

/-- The key that a symbol stands for, by its bytes. -/
def Symbol.keyBytes? : Symbol → Option Bytes
  | .push33 data => some data.bytes
  | _ => none

/-- The keys that instructions push, in order. -/
def Script.pushedKeys (is : List Instruction) : List Key := is.filterMap Instruction.key?

namespace Fragment

mutual

/-- The fragment with the last two parts of every `andor` exchanged. -/
@[simp] def exchanged : Fragment → Fragment
  | .leaf l => .leaf l
  | .wrap w x => .wrap w x.exchanged
  | .pair op x y => .pair op x.exchanged y.exchanged
  | .andor x y z => .andor x.exchanged z.exchanged y.exchanged
  | .thresh k subs => .thresh k (exchangedAll subs)

/-- The fragments with the last two parts of every `andor` exchanged. -/
@[simp] def exchangedAll : List Fragment → List Fragment
  | [] => []
  | x :: rest => x.exchanged :: exchangedAll rest

end

/-! ## Keys in the script -/

/-- Something read off instructions one by one that is only there for keys. A push of 20 or 32 bytes
is none. -/
structure SeesKeys {α : Type} (read : Instruction → List α) : Prop where
  op (o : Opcode) : read (.op o) = []
  bit (b : Bool) : read (.bit b) = []
  number (n : Nat) : read (.number n) = []
  hash (d : Bytes) : d.length = 20 ∨ d.length = 32 → read (.data d) = []

section Reading

variable {α : Type} {read : Instruction → List α}

theorem read_leaf (sees : SeesKeys read) (l : Leaf) (verify : Bool) :
    (l.instructions verify).flatMap read = l.keys.flatMap fun key => read (.key key) := by
  have hash {n : Nat} (size : n = 20 ∨ n = 32) (d : Digest n) : read (.data d.bytes) = [] := by
    apply sees.hash
    rw [d.length_bytes]
    exact size
  cases l with
  | pkHash committed =>
    simp [Leaf.instructions, Leaf.keys, sees.op, hash (.inl rfl)]
  | hashLock f image =>
    have size : f.width = 20 ∨ f.width = 32 := by
      cases f <;> decide
    simp [Leaf.instructions, Leaf.keys, sees.op, sees.number, hash size]
  | _ => simp [Leaf.instructions, Leaf.keys, sees.op, sees.bit, sees.number, List.flatMap_map]

theorem read_sumInstructions (sees : SeesKeys read) {subs : List Fragment}
    (each : ∀ x ∈ subs, (x.instructions false).flatMap read
      = x.exchanged.keys.flatMap fun key => read (.key key)) (first : Bool) :
    (sumInstructions first subs).flatMap read
      = (keysOf (exchangedAll subs)).flatMap fun key => read (.key key) := by
  induction subs generalizing first with
  | nil => rfl
  | cons x rest ih =>
    obtain ⟨head, others⟩ := List.forall_mem_cons.1 each
    have added : (if first then [] else [Instruction.op .add]).flatMap read = [] := by
      cases first <;> simp [sees.op]
    rw [sumInstructions, exchangedAll, keysOf, List.flatMap_append, List.flatMap_append,
      List.flatMap_append, head, added, List.append_nil, ih others]

/-- What is read off the script of a fragment is what is there for the keys of the exchanged
fragment, in their order. -/
theorem read_instructions (sees : SeesKeys read) (f : Fragment) (verify : Bool) :
    (f.instructions verify).flatMap read
      = f.exchanged.keys.flatMap fun key => read (.key key) := by
  induction f generalizing verify with
  | leaf l =>
    rw [instructions, exchanged, keys]
    exact read_leaf sees l verify
  | wrap w x ih =>
    cases w with
    | verify =>
      have verified : (if (x.cost Int64).verifyForm then [] else [Instruction.op .verify]).flatMap read
          = [] := by
        cases (x.cost Int64).verifyForm <;> simp [sees.op]
      rw [instructions, List.flatMap_append, verified, List.append_nil, ih, exchanged, keys]
    | _ => simp [instructions, keys, ih, sees.op]
  | pair op x y ihx ihy => cases op <;> simp [instructions, keys, ihx, ihy, sees.op]
  | andor x y z ihx ihy ihz => simp [instructions, keys, ihx, ihy, ihz, sees.op]
  | thresh k subs ih =>
    have sum := read_sumInstructions sees (fun x member => ih x member false) true
    simp [instructions, keys, sum, sees.op, sees.number]

end Reading

theorem pushedKeys_instructions (f : Fragment) (verify : Bool) :
    Script.pushedKeys (f.instructions verify) = f.exchanged.keys := by
  have sees : SeesKeys fun i => i.key?.toList :=
    ⟨fun _ => rfl, fun _ => rfl, fun _ => rfl, fun _ _ => rfl⟩
  rw [Script.pushedKeys, List.filterMap_eq_flatMap_toList, read_instructions sees]
  exact List.flatMap_singleton' _

/-- The keys among the symbols of a fragment are those that its script pushes. -/
theorem keyBytes_symbols (f : Fragment) :
    f.symbols.filterMap Symbol.keyBytes? = f.exchanged.keys.filterMap Key.bytes? := by
  have sees : SeesKeys fun i => i.symbols.filterMap Symbol.keyBytes? := by
    refine ⟨fun o => ?_, fun _ => rfl, fun _ => rfl, fun d size => ?_⟩
    · cases o <;> rfl
    · rcases size with size | size <;>
        simp [Instruction.symbols, Symbol.ofData?, size, Symbol.keyBytes?]
  have own (key : Key) :
      (Instruction.key key).symbols.filterMap Symbol.keyBytes? = key.bytes?.toList := by
    cases key <;> rfl
  rw [symbols_eq, List.filterMap_flatMap, read_instructions sees, List.filterMap_eq_flatMap_toList]
  simp only [own]

theorem exists_point_of_mem_pushedKeys {f : Fragment} {b : Bytes} (written : f.script = .ok b) :
    ∀ key ∈ Script.pushedKeys (f.instructions false), ∃ p, key = .point p := by
  intro key pushed
  obtain ⟨i, member, found⟩ := List.mem_filterMap.1 pushed
  cases i with
  | key k =>
    cases found
    exact exists_point_of_missingKey? ((script_eq_ok_iff.1 written).1 _ member)
  | _ => cases found

theorem map_some_filterMap_bytes? {keys : List Key} (known : ∀ key ∈ keys, ∃ p, key = .point p) :
    (keys.filterMap Key.bytes?).map some = keys.map Key.bytes? := by
  induction keys with
  | nil => rfl
  | cons key rest ih =>
    obtain ⟨⟨p, rfl⟩, others⟩ := List.forall_mem_cons.1 known
    rw [List.filterMap_cons, List.map_cons, ← ih others]
    rfl

/-- The keys that are read back from the bytes of a script are those that it pushes. -/
theorem keyBytes_lex {f : Fragment} {facts : Facts Int64} {b : Bytes} (typed : f.facts? = .ok facts)
    (written : f.script = .ok b) :
    ∃ tokens, Token.lex b = .ok tokens ∧
      (tokens.reverse.filterMap fun t => t.symbol.keyBytes?).map some =
        (Script.pushedKeys (f.instructions false)).map Key.bytes? := by
  have readable := readable_of_typed typed (writable_of_script written)
  obtain ⟨tokens, lexed, same⟩ := lex_script readable written
  have symbols : tokens.reverse.map Token.symbol = f.symbols := by
    rw [List.map_reverse, same, List.reverse_reverse]
  have found : (tokens.reverse.filterMap fun t => t.symbol.keyBytes?)
      = (Script.pushedKeys (f.instructions false)).filterMap Key.bytes? := by
    rw [pushedKeys_instructions, ← keyBytes_symbols, ← symbols, List.filterMap_map]
    rfl
  refine ⟨tokens, lexed, ?_⟩
  rw [found]
  exact map_some_filterMap_bytes? (exists_point_of_mem_pushedKeys written)

/-! ## Keys in the list and in the script -/

theorem keysOf_exchangedAll_perm {subs : List Fragment}
    (each : ∀ x ∈ subs, x.exchanged.keys.Perm x.keys) :
    (keysOf (exchangedAll subs)).Perm (keysOf subs) := by
  induction subs with
  | nil => exact .refl _
  | cons x rest ih =>
    obtain ⟨head, others⟩ := List.forall_mem_cons.1 each
    rw [exchangedAll, keysOf, keysOf]
    exact head.append (ih others)

/-- The script pushes the same keys as are listed. -/
theorem keys_exchanged_perm (f : Fragment) : f.exchanged.keys.Perm f.keys := by
  induction f with
  | leaf l => exact .refl _
  | wrap w x ih => exact ih
  | pair op x y ihx ihy =>
    rw [exchanged, keys, keys]
    exact ihx.append ihy
  | andor x y z ihx ihy ihz =>
    rw [exchanged, keys, keys, List.append_assoc, List.append_assoc]
    exact ihx.append (List.perm_append_comm.trans (ihy.append ihz))
  | thresh k subs ih =>
    rw [exchanged, keys, keys]
    exact keysOf_exchangedAll_perm ih

/-- No `andor` in the fragment has keys in both its second and its third part. -/
def OneSided (f : Fragment) : Prop :=
  ∀ x y z, f.Contains (.andor x y z) → y.keys = [] ∨ z.keys = []

theorem oneSided_iff {f : Fragment} :
    f.OneSided ↔ (∀ x y z, f = .andor x y z → y.keys = [] ∨ z.keys = []) ∧
      ∀ x ∈ f.children, x.OneSided := by
  constructor
  · intro sided
    constructor
    · rintro x y z rfl
      exact sided x y z .whole
    · intro t child x y z inside
      exact sided x y z (.of_child child inside)
  · rintro ⟨own, parts⟩ x y z inside
    rcases contains_iff.1 inside with same | ⟨t, child, inside⟩
    · exact own x y z same.symm
    · exact parts t child x y z inside

theorem OneSided.part {f x : Fragment} (sided : f.OneSided) (child : x ∈ f.children) :
    x.OneSided :=
  (oneSided_iff.1 sided).2 x child

theorem keysOf_exchangedAll {subs : List Fragment}
    (each : ∀ x ∈ subs, x.exchanged.keys = x.keys) :
    keysOf (exchangedAll subs) = keysOf subs := by
  induction subs with
  | nil => rfl
  | cons x rest ih =>
    obtain ⟨head, others⟩ := List.forall_mem_cons.1 each
    rw [exchangedAll, keysOf, keysOf, head, ih others]

/-- Where only one of the parts exchanged has keys, the order of the keys stays. -/
theorem OneSided.keys_exchanged {f : Fragment} (sided : f.OneSided) :
    f.exchanged.keys = f.keys := by
  induction f with
  | leaf l => rfl
  | wrap w x ih => exact ih (sided.part List.mem_cons_self)
  | pair op x y ihx ihy =>
    rw [exchanged, keys, keys, ihx (sided.part (mem_children_pair.2 (.inl rfl))),
      ihy (sided.part (mem_children_pair.2 (.inr rfl)))]
  | andor x y z ihx ihy ihz =>
    rw [exchanged, keys, keys, ihx (sided.part (mem_children_andor.2 (.inl rfl))),
      ihy (sided.part (mem_children_andor.2 (.inr (.inl rfl)))),
      ihz (sided.part (mem_children_andor.2 (.inr (.inr rfl))))]
    rcases sided x y z .whole with none | none <;> simp [none]
  | thresh k subs ih =>
    rw [exchanged, keys, keys]
    exact keysOf_exchangedAll fun x member => ih x member (sided.part member)

/-! ## Keys that are all different -/

theorem length_keys_exchanged (f : Fragment) : f.exchanged.keys.length = f.keys.length :=
  f.keys_exchanged_perm.length_eq

/-- Keys of parts that come one after the other are in order together if they are one by one. -/
theorem keys_exchanged_of_append {x : Fragment} {ys zs : List Key}
    (same : x.exchanged.keys ++ ys = x.keys ++ zs) : x.exchanged.keys = x.keys ∧ ys = zs :=
  List.append_inj same x.length_keys_exchanged

theorem keys_exchanged_of_keysOf {subs : List Fragment}
    (same : keysOf (exchangedAll subs) = keysOf subs) : ∀ x ∈ subs, x.exchanged.keys = x.keys := by
  induction subs with
  | nil => exact List.forall_mem_nil _
  | cons x rest ih =>
    rw [exchangedAll, keysOf, keysOf] at same
    obtain ⟨head, tail⟩ := keys_exchanged_of_append same
    exact List.forall_mem_cons.2 ⟨head, ih tail⟩

/-- Different keys on both sides cannot be exchanged unnoticed: the first would have to be on either
side. -/
theorem oneSided_of_append {y z : Fragment} (different : (y.keys ++ z.keys).Nodup)
    (same : z.exchanged.keys ++ y.exchanged.keys = y.keys ++ z.keys) :
    y.keys = [] ∨ z.keys = [] := by
  cases first : y.keys with
  | nil => exact .inl rfl
  | cons a as =>
    cases last : z.exchanged.keys with
    | nil => exact .inr (last ▸ z.keys_exchanged_perm).nil_eq.symm
    | cons b bs =>
      rw [first, last, List.cons_append, List.cons_append] at same
      obtain rfl := (List.cons.inj same).1
      have left : b ∈ y.keys := first ▸ List.mem_cons_self
      have right : b ∈ z.keys := z.keys_exchanged_perm.mem_iff.1 (last ▸ List.mem_cons_self)
      exact absurd rfl ((List.nodup_append.1 different).2.2 b left b right)

theorem keys_exchanged_of_oneSided {y z : Fragment} (sided : y.keys = [] ∨ z.keys = [])
    (same : z.exchanged.keys ++ y.exchanged.keys = y.keys ++ z.keys) :
    y.exchanged.keys = y.keys ∧ z.exchanged.keys = z.keys := by
  rcases sided with none | none
  · have empty : y.exchanged.keys = [] := (none ▸ y.keys_exchanged_perm).eq_nil
    rw [empty, none, List.append_nil, List.nil_append] at same
    exact ⟨empty.trans none.symm, same⟩
  · have empty : z.exchanged.keys = [] := (none ▸ z.keys_exchanged_perm).eq_nil
    rw [empty, none, List.append_nil, List.nil_append] at same
    exact ⟨same, empty.trans none.symm⟩

/-- If the keys are all different, the script has them in the order of the list only if no `andor`
has keys in both of its last parts. -/
theorem oneSided_of_keys_exchanged {f : Fragment} (different : f.keys.Nodup)
    (same : f.exchanged.keys = f.keys) : f.OneSided := by
  induction f with
  | leaf l =>
    exact oneSided_iff.2 ⟨nofun, List.forall_mem_nil _⟩
  | wrap w x ih =>
    exact oneSided_iff.2 ⟨nofun, List.forall_mem_singleton.2 (ih different same)⟩
  | pair op x y ihx ihy =>
    rw [keys] at different
    rw [exchanged, keys, keys] at same
    obtain ⟨differentX, differentY, -⟩ := List.nodup_append.1 different
    obtain ⟨left, right⟩ := keys_exchanged_of_append same
    refine oneSided_iff.2 ⟨nofun, fun t child => ?_⟩
    rcases mem_children_pair.1 child with rfl | rfl
    · exact ihx differentX left
    · exact ihy differentY right
  | andor x y z ihx ihy ihz =>
    rw [keys, List.append_assoc] at different
    rw [exchanged, keys, keys, List.append_assoc, List.append_assoc] at same
    obtain ⟨differentX, differentYZ, -⟩ := List.nodup_append.1 different
    obtain ⟨differentY, differentZ, -⟩ := List.nodup_append.1 differentYZ
    obtain ⟨first, others⟩ := keys_exchanged_of_append same
    have sided := oneSided_of_append differentYZ others
    obtain ⟨second, third⟩ := keys_exchanged_of_oneSided sided others
    refine oneSided_iff.2 ⟨fun x' y' z' same => ?_, fun t child => ?_⟩
    · cases same
      exact sided
    · rcases mem_children_andor.1 child with rfl | rfl | rfl
      · exact ihx differentX first
      · exact ihy differentY second
      · exact ihz differentZ third
  | thresh k subs ih =>
    rw [keys] at different
    rw [exchanged, keys, keys] at same
    refine oneSided_iff.2 ⟨nofun, fun x member => ?_⟩
    apply ih x member
    · rw [keysOf_eq_flatMap] at different
      exact (List.nodup_flatMap.1 different).1 x member
    · exact keys_exchanged_of_keysOf same x member

end Fragment

/-! ## Checked fragments -/

namespace Checked

open Script (pushedKeys)

/-- A script pushes the keys of its fragment in the order that they have once the last two parts of
every `andor` are exchanged, and in this order they are read back from its bytes. They are the keys
that are listed. They come as listed if no `andor` has keys in both of the parts exchanged, and if
no key is listed twice then only so. -/
theorem keys_follow_script (m : Checked) :
    pushedKeys (m.fragment.instructions false) = m.fragment.exchanged.keys ∧
    (pushedKeys (m.fragment.instructions false)).Perm m.fragment.keys ∧
    (m.fragment.OneSided → pushedKeys (m.fragment.instructions false) = m.fragment.keys) ∧
    (m.fragment.keys.Nodup → pushedKeys (m.fragment.instructions false) = m.fragment.keys →
      m.fragment.OneSided) ∧
    ∀ b, m.fragment.script = .ok b → ∃ tokens, Token.lex b = .ok tokens ∧
      (tokens.reverse.filterMap fun t => t.symbol.keyBytes?).map some =
        (pushedKeys (m.fragment.instructions false)).map Key.bytes? := by
  have pushed := m.fragment.pushedKeys_instructions false
  refine ⟨pushed, ?_, ?_, ?_, ?_⟩
  · rw [pushed]
    exact m.fragment.keys_exchanged_perm
  · intro sided
    rw [pushed]
    exact sided.keys_exchanged
  · intro different same
    rw [pushed] at same
    exact Fragment.oneSided_of_keys_exchanged different same
  · intro b written
    exact Fragment.keyBytes_lex m.typed written

/-- `thresh(1,andor(c:pk(A),n:older(10),c:pk(B)),s:c:pk(C))`. -/
def relieved : Checked where
  fragment := .thresh 1 [
    .andor (.wrap .check (.leaf (.pk (.named [0x41])))) (.wrap .zeroNotEqual (.leaf (.older 10)))
      (.wrap .check (.leaf (.pk (.named [0x42])))),
    .wrap .swap (.wrap .check (.leaf (.pk (.named [0x43]))))]
  facts := ⟨⟨⟨.B, .any, true, true⟩, ⟨.unique, true, true⟩⟩,
    ⟨.safe, 115, true, 11, some 11, some 11⟩⟩
  typed := by rfl

theorem keys_follow_script_relieved :
    relieved.fragment.keys.Nodup ∧ relieved.fragment.OneSided ∧
    pushedKeys (relieved.fragment.instructions false) = relieved.fragment.keys := by
  have different : relieved.fragment.keys.Nodup := by decide
  obtain ⟨-, -, inOrder, oneSided, -⟩ := relieved.keys_follow_script
  have sided := oneSided different rfl
  exact ⟨different, sided, inOrder sided⟩

/-- `andor(c:pk(A),c:pk(B),c:pk(C))`. -/
def alternated : Checked where
  fragment := .andor (.wrap .check (.leaf (.pk (.named [0x41]))))
    (.wrap .check (.leaf (.pk (.named [0x42])))) (.wrap .check (.leaf (.pk (.named [0x43]))))
  facts := ⟨⟨⟨.B, .any, true, true⟩, ⟨.unique, true, true⟩⟩,
    ⟨.safe, 108, false, 6, some 6, some 6⟩⟩
  typed := by rfl

/-- The last key of the list is pushed before the second. -/
theorem pushedKeys_alternated :
    alternated.fragment.keys = [.named [0x41], .named [0x42], .named [0x43]] ∧
    pushedKeys (alternated.fragment.instructions false)
      = [.named [0x41], .named [0x43], .named [0x42]] ∧
    pushedKeys (alternated.fragment.instructions false) ≠ alternated.fragment.keys := by
  refine ⟨rfl, rfl, ?_⟩
  decide

end Checked

end LockScript
