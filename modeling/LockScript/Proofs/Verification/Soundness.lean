import LockScript.Proofs.Fragment.Canonical
import LockScript.Proofs.Verification.Cache
import LockScript.Verification.Basic

/-!
Verification with a memory.

The cache may be any that is lawful. A memory is sound if nothing was ever inserted for a text but
what every fragment with that text has. No part of verification is able to spoil a sound memory,
whatever claims it meets, since nothing is remembered but what was found.

There is one walk through a verification, for any invariant of memories that implies that they are
sound (`Closed`). From such a memory, facts are found as if there were none (`derive_keeps`), and a
tree in which every claim is right is accepted (`verify_keeps`). What holds of a tree that is accepted
depends on the invariant; from a sound memory, the whole claims the facts that it has.
-/

namespace LockScript

/-! ## Sound memories -/

namespace Memory

variable {σ : Type} [Cache σ Bytes (Facts Int64)]

/-- All that was ever inserted for a text is what every fragment with that text has. -/
def Sound (memory : Memory σ) : Prop :=
  ∀ known, memory = some known → ∃ inserted, Cache.Made known inserted ∧
    ∀ e ∈ inserted, ∀ f : Fragment, f.Plain → f.text = e.1 → f.facts? = .ok e.2

theorem sound_none : Sound (none : Memory σ) := nofun

theorem sound_ofLimit (limit : Nat) : Sound (ofLimit limit : Memory σ) := by
  rintro known ⟨⟩
  exact ⟨[], .new _, List.forall_mem_nil _⟩

variable {known : σ} {f : Fragment} {facts : Facts Int64}

theorem Sound.facts? [Cache.Lawful σ] (sound : Sound (some known)) (plain : f.Plain)
    (found : (Cache.lookup known f.text).1 = some facts) : f.facts? = .ok facts := by
  rcases sound known rfl with ⟨inserted, made, right⟩
  exact right (f.text, facts) (Cache.mem_of_lookup made found) f plain rfl

theorem Sound.looked (sound : Sound (some known)) (text : Bytes) :
    Sound (some (Cache.lookup known text).2) := by
  rintro _ ⟨⟩
  rcases sound known rfl with ⟨inserted, made, right⟩
  exact ⟨inserted, made.looked text, right⟩

/-- What was found for one fragment holds for all that have the same text. -/
theorem Sound.inserted (sound : Sound (some known)) (plain : f.Plain)
    (typed : f.facts? = .ok facts) : Sound (some (Cache.insert known f.text facts)) := by
  rintro _ ⟨⟩
  rcases sound known rfl with ⟨inserted, made, right⟩
  refine ⟨_, made.inserted f.text facts, List.forall_mem_cons.2 ⟨?_, right⟩⟩
  intro g plain' same
  exact Fragment.facts?_of_text_eq plain plain' same.symm typed

end Memory

/-! ## Computations with a memory -/

namespace Verification

variable {σ α β : Type} {inv : Memory σ → Prop}

/-- From a memory with the invariant, the computation leads to one with the invariant and to an
outcome as stated. -/
def Keeps (inv : Memory σ → Prop) (computation : Run σ α) (outcome : Except Error α → Prop) : Prop :=
  ∀ memory : Memory σ, inv memory →
    inv (computation.run.run memory).2 ∧ outcome (computation.run.run memory).1

section Rules

variable {first : Run σ α} {next : α → Run σ β} {mid : Except Error α → Prop}
  {outcome : Except Error β → Prop}

theorem keeps_pure {a : α} (holds : mid (.ok a)) : Keeps inv (pure a) mid :=
  fun _ kept => ⟨kept, holds⟩

theorem keeps_throw {e : Error} (holds : mid (.error e)) : Keeps inv (throw e) mid :=
  fun _ kept => ⟨kept, holds⟩

/-- The second computation starts with what the first one leaves, unless that one fails. -/
theorem run_bind (first : Run σ α) (next : α → Run σ β) (memory : Memory σ) :
    (first >>= next).run.run memory =
      match first.run.run memory with
      | (.ok a, later) => (next a).run.run later
      | (.error e, later) => (.error e, later) := by
  rw [ExceptT.run_bind, StateT.run_bind]
  cases first.run.run memory with
  | mk found later => cases found <;> rfl

theorem Keeps.bind (keeps : Keeps inv first mid) (ok : ∀ a, mid (.ok a) → Keeps inv (next a) outcome)
    (error : ∀ e, mid (.error e) → outcome (.error e)) : Keeps inv (first >>= next) outcome := by
  intro memory kept
  have started := keeps memory kept
  rw [run_bind]
  cases result : first.run.run memory with
  | mk found later =>
    rw [result] at started
    cases found with
    | ok a => exact ok a started.2 later started.1
    | error e => exact ⟨started.1, error e started.2⟩

theorem Keeps.mono {weaker : Except Error α → Prop} (keeps : Keeps inv first mid)
    (implies : ∀ o, mid o → weaker o) : Keeps inv first weaker :=
  fun memory kept => ⟨(keeps memory kept).1, implies _ (keeps memory kept).2⟩

end Rules

/-! ## Facts from a memory -/

/-- What is found for a fragment: its facts, or that it has none. -/
def Answers (f : Fragment) : Except Error (Facts Int64) → Prop
  | .ok facts => f.facts? = .ok facts
  | .error _ => ∀ facts : Facts Int64, f.facts? ≠ .ok facts

theorem judge_keeps {f : Fragment} {found : Except Refusal (Facts Int64)}
    (same : f.facts? = f.blame found) : Keeps inv (judge f found) (Answers f) := by
  unfold judge
  split
  · next facts judged => exact keeps_pure (same.trans judged)
  · next e judged =>
    refine keeps_throw fun facts typed => ?_
    rw [same, judged] at typed
    cases typed

variable [Cache σ Bytes (Facts Int64)]

theorem run_remembered?_none (f : Fragment) :
    (remembered? f).run.run (none : Memory σ) = (.ok none, none) := rfl

theorem run_remembered?_some (f : Fragment) (known : σ) :
    (remembered? f).run.run (some known) =
      (.ok (Cache.lookup known f.text).1, some (Cache.lookup known f.text).2) := rfl

/-- An invariant of sound memories that still holds when something has been looked up. -/
structure Stable (inv : Memory σ → Prop) : Prop where
  sound {memory : Memory σ} (kept : inv memory) : memory.Sound
  looked {known : σ} (kept : inv (some known)) (text : Bytes) :
    inv (some (Cache.lookup known text).2)

theorem remembered?_keeps (stable : Stable inv) (f : Fragment) :
    Keeps inv (remembered? f) fun o => ∃ found, o = .ok found ∧ ∀ facts, found = some facts →
      ∃ known, inv (some known) ∧ (Cache.lookup known f.text).1 = some facts := by
  intro memory kept
  cases memory with
  | none =>
    rw [run_remembered?_none]
    exact ⟨kept, none, rfl, fun facts none => by cases none⟩
  | some known =>
    rw [run_remembered?_some]
    exact ⟨stable.looked kept _, _, rfl, fun facts found => ⟨known, kept, found⟩⟩

section Deriving

variable [Cache.Lawful σ] (stable : Stable inv)
include stable

theorem rememberedOr_keeps {f : Fragment} (plain : f.Plain) {find : Run σ (Facts Int64)}
    (keeps : Keeps inv find (Answers f)) : Keeps inv (rememberedOr f find) (Answers f) := by
  refine (remembered?_keeps stable f).bind ?_ ?_
  · rintro found ⟨_, ⟨⟩, source⟩
    cases found with
    | none => exact keeps
    | some facts =>
      rcases source facts rfl with ⟨known, kept, entry⟩
      exact keeps_pure ((stable.sound kept).facts? plain entry)
  · rintro e ⟨found, ⟨⟩, -⟩

/-- The parts of a threshold have facts that fit it, or some part has not. -/
def AnswersAll (index : Nat) (subs : List Fragment) : Except Error (List (Facts Int64)) → Prop
  | .ok fs => List.Forall₂ (fun x fx => x.facts? = .ok fx) subs fs ∧
      Correctness.checkSubs index (fs.map fun x => x.type.corr) = .ok ()
  | .error _ => ∀ fs : List (Facts Int64),
      List.Forall₂ (fun x fx => x.facts? = .ok fx) subs fs →
      Correctness.checkSubs index (fs.map fun x => x.type.corr) ≠ .ok ()

theorem deriveSubs_keeps {subs : List Fragment} (plain : ∀ x ∈ subs, x.Plain)
    (each : ∀ x ∈ subs, Keeps inv (derive x) (Answers x)) (whole : Fragment) (index : Nat) :
    Keeps inv (deriveSubs whole index subs) (AnswersAll index subs) := by
  induction subs generalizing index with
  | nil =>
    rw [deriveSubs]
    exact keeps_pure ⟨.nil, rfl⟩
  | cons x rest ih =>
    have tail := ih (fun y member => plain y (List.mem_cons_of_mem _ member))
      (fun y member => each y (List.mem_cons_of_mem _ member)) (index + 1)
    rw [deriveSubs]
    refine (rememberedOr_keeps stable (plain x List.mem_cons_self)
      (each x List.mem_cons_self)).bind ?_ ?_
    · intro fx (typed : x.facts? = .ok fx)
      cases fits : Correctness.checkSub index fx.type.corr with
      | error m =>
        refine keeps_throw ?_
        rintro _ (_ | ⟨typed', -⟩)
        cases typed.symm.trans typed'
        simp [Correctness.checkSubs, fits]
      | ok u =>
        refine tail.bind ?_ ?_
        · rintro fs ⟨others, checked⟩
          refine keeps_pure ⟨.cons typed others, ?_⟩
          simp [Correctness.checkSubs, fits, checked]
        · intro e none
          rintro _ (_ | ⟨typed', others⟩)
          cases typed.symm.trans typed'
          simpa [Correctness.checkSubs, fits] using none _ others
    · intro e none
      rintro _ (_ | ⟨typed, -⟩)
      exact absurd typed (none _)

/-- To find the facts of a fragment, those of a part are found first. -/
theorem part_keeps {f x : Fragment} (plain : f.Plain) (child : x ∈ f.children)
    (part : x.Plain → Keeps inv (derive x) (Answers x)) {next : Facts Int64 → Run σ (Facts Int64)}
    (rest : ∀ fx : Facts Int64, x.facts? = .ok fx → Keeps inv (next fx) (Answers f)) :
    Keeps inv (rememberedOr x (derive x) >>= next) (Answers f) := by
  have found := plain.part child
  refine (rememberedOr_keeps stable found (part found)).bind rest ?_
  intro e none facts typed
  rcases Fragment.exists_facts?_of_child typed child with ⟨fx, hx⟩
  exact none fx hx

/-- The facts of a threshold are found if those of its parts are. -/
theorem thresh_keeps {k : Int} {subs : List Fragment} (plain : ∀ x ∈ subs, x.Plain)
    (each : ∀ x ∈ subs, Keeps inv (derive x) (Answers x)) :
    Keeps inv (derive (.thresh k subs)) (Answers (.thresh k subs)) := by
  rw [derive]
  cases range : Facts.checkThreshold k subs.length with
  | error m =>
    refine keeps_throw ?_
    intro facts typed
    rcases Fragment.facts?_thresh_iff.1 typed with ⟨fs, all, checked, -⟩
    rw [← all.length_eq, range] at checked
    cases checked
  | ok u =>
    refine (deriveSubs_keeps stable plain each (.thresh k subs) 0).bind ?_ ?_
    · rintro fs ⟨all, checked⟩
      refine judge_keeps ?_
      rw [Fragment.facts?, Fragment.factsOf?_eq_ok_iff.2 all]
      rw [all.length_eq] at range
      simp [Facts.threshold, range, checked]
    · intro e none facts typed
      rcases Fragment.facts?_thresh_iff.1 typed with ⟨fs, all, -, checked, -⟩
      exact none fs all checked

/-- The facts of a fragment are found whatever is remembered. -/
theorem derive_keeps {f : Fragment} (plain : f.Plain) : Keeps inv (derive f) (Answers f) := by
  induction f with
  | leaf l =>
    rw [derive]
    exact judge_keeps (by rw [Fragment.facts?])
  | wrap w x ih =>
    rw [derive]
    refine part_keeps stable plain (by simp [Fragment.children]) ih fun fx hx => ?_
    exact judge_keeps (by rw [Fragment.facts?, hx])
  | pair op x y ihx ihy =>
    rw [derive]
    refine part_keeps stable plain (by simp [Fragment.children]) ihx fun fx hx => ?_
    refine part_keeps stable plain (by simp [Fragment.children]) ihy fun fy hy => ?_
    exact judge_keeps (by rw [Fragment.facts?, hx, hy])
  | andor x y z ihx ihy ihz =>
    rw [derive]
    refine part_keeps stable plain (by simp [Fragment.children]) ihx fun fx hx => ?_
    refine part_keeps stable plain (by simp [Fragment.children]) ihy fun fy hy => ?_
    refine part_keeps stable plain (by simp [Fragment.children]) ihz fun fz hz => ?_
    exact judge_keeps (by rw [Fragment.facts?, hx, hy, hz])
  | thresh k subs ih =>
    have parts : ∀ x ∈ subs, x.Plain := fun x member => plain.part member
    exact thresh_keeps stable parts fun x member => ih x member (parts x member)

end Deriving

end Verification

/-! ## Claims -/

namespace Claimed

/-- Every part of a tree, the whole included, claims the facts that it has. -/
inductive Honest : Claimed → Prop
  | intro {c : Claimed} (own : c.fragment.facts? = .ok c.claim) (parts : ∀ x ∈ c.children, Honest x) :
    Honest c

theorem Honest.own {c : Claimed} (honest : c.Honest) : c.fragment.facts? = .ok c.claim := by
  cases honest with
  | intro own parts => exact own

theorem Honest.part {c x : Claimed} (honest : c.Honest) (child : x ∈ c.children) : x.Honest := by
  cases honest with
  | intro own parts => exact parts x child

/-- A part of the tree, or the tree itself. -/
inductive Contains (c : Claimed) : Claimed → Prop
  | whole : Contains c c
  | part {x y : Claimed} (inside : Contains c x) (child : y ∈ x.children) : Contains c y

theorem children_fragment (c : Claimed) : c.fragment.children = c.children.map fragment := by
  cases c with
  | thresh claim k subs => exact fragments_eq_map subs
  | _ => rfl

theorem Contains.plain {c x : Claimed} (inside : c.Contains x) (plain : c.fragment.Plain) :
    x.fragment.Plain := by
  induction inside with
  | whole => exact plain
  | @part x y _ child ih =>
    apply ih.part
    rw [children_fragment]
    exact List.mem_map_of_mem child

end Claimed

/-! ## Verdicts -/

namespace Verification

variable {σ : Type} {inv : Memory σ → Prop} {good : Claimed → Prop}

/-- What is to be said of several trees: if they are accepted, then all of them are good, and if all
claims in them are right, then they are accepted. -/
structure Verdict (good : Claimed → Prop) (trees : List Claimed) (o : Except Error Unit) : Prop where
  sound : o = .ok () → ∀ c ∈ trees, good c
  complete : (∀ c ∈ trees, c.Honest) → o = .ok ()

theorem Verdict.of_error {c : Claimed} {e : Error} (wrong : ¬ c.Honest) :
    Verdict good [c] (.error e) :=
  ⟨nofun, fun honest => absurd (List.forall_mem_singleton.1 honest) wrong⟩

/-- A claim is accepted exactly if it is what was found. -/
theorem checkClaim_keeps (c : Claimed) (found : Facts Int64) :
    Keeps inv (checkClaim c found) fun o => o = .ok () ↔ c.claim = found := by
  unfold checkClaim
  split
  · next other =>
    refine keeps_throw ⟨nofun, ?_⟩
    rintro rfl
    exact absurd rfl other
  · next type =>
    split
    · next other =>
      refine keeps_throw ⟨nofun, ?_⟩
      rintro rfl
      exact absurd rfl other
    · next cost =>
      have same : c.claim = found :=
        calc c.claim = ⟨c.claim.type, c.claim.cost⟩ := rfl
          _ = ⟨found.type, found.cost⟩ := by rw [not_ne_iff.1 type, not_ne_iff.1 cost]
          _ = found := rfl
      exact keeps_pure ⟨fun _ => same, fun _ => rfl⟩

/-- Two verifications in turn. -/
theorem Keeps.both {first second : Run σ Unit} {trees trees' : List Claimed}
    (keeps : Keeps inv first (Verdict good trees)) (keeps' : Keeps inv second (Verdict good trees')) :
    Keeps inv (do first; second) (Verdict good (trees ++ trees')) := by
  refine keeps.bind (fun _ verdict => ?_) fun _ verdict => ⟨nofun, fun honest => ?_⟩
  · refine keeps'.mono fun _ verdict' => ⟨fun ok => ?_, fun honest => ?_⟩
    · exact List.forall_mem_append.2 ⟨verdict.sound rfl, verdict'.sound ok⟩
    · exact verdict'.complete (List.forall_mem_append.1 honest).2
  · exact verdict.complete (List.forall_mem_append.1 honest).1

variable [Cache σ Bytes (Facts Int64)]

/-- An invariant that every verification of a part of `whole` preserves, and what it tells of the
parts that are accepted. A part whose text is remembered is not gone into, so the invariant has to
tell what is below it. -/
structure Closed (inv : Memory σ → Prop) (whole : Claimed) (good : Claimed → Prop) : Prop
    extends Stable inv where
  remembered {c : Claimed} (inside : whole.Contains c) {known : σ} (kept : inv (some known))
    (found : (Cache.lookup known c.text).1 = some c.claim) : good c
  learned {c : Claimed} (inside : whole.Contains c) (below : ∀ x ∈ c.children, good x)
    (own : c.fragment.facts? = .ok c.claim) :
    good c ∧ ∀ known, inv (some known) → inv (some (Cache.insert known c.text c.claim))

theorem verifyAll_keeps {subs : List Claimed}
    (each : ∀ x ∈ subs, Keeps inv (verify x) (Verdict good [x])) :
    Keeps inv (verifyAll subs) (Verdict good subs) := by
  induction subs with
  | nil =>
    rw [verifyAll]
    exact keeps_pure ⟨fun _ => List.forall_mem_nil good, fun _ => rfl⟩
  | cons x rest ih =>
    rw [verifyAll]
    exact (each x List.mem_cons_self).both
      (ih fun y member => each y (List.mem_cons_of_mem _ member))

section Verifying

variable [Cache.Lawful σ] {whole : Claimed} (closed : Closed inv whole good)
  (plain : whole.fragment.Plain)
include closed plain

/-- One part, once those below it are verified. Its claim is compared with facts that it has, be they
remembered or found again. -/
theorem settle_keeps {c : Claimed} (inside : whole.Contains c) {verifyParts : Run σ Unit}
    (parts : Keeps inv verifyParts (Verdict good c.children)) :
    Keeps inv (settle c verifyParts) (Verdict good [c]) := by
  have compared {facts : Facts Int64} (typed : c.fragment.facts? = .ok facts)
      (right : c.claim = facts → good c) {o : Except Error Unit}
      (checked : o = .ok () ↔ c.claim = facts) : Verdict good [c] o := by
    constructor
    · exact fun ok => List.forall_mem_singleton.2 (right (checked.1 ok))
    · intro honest
      have own := (List.forall_mem_singleton.1 honest).own
      exact checked.2 (Except.ok.inj (own.symm.trans typed))
  refine (remembered?_keeps closed.toStable c.fragment).bind ?_ ?_
  · rintro found ⟨_, ⟨⟩, source⟩
    cases found with
    | some facts =>
      rcases source facts rfl with ⟨known, kept, entry⟩
      have typed := (closed.sound kept).facts? (inside.plain plain) entry
      refine (checkClaim_keeps c facts).mono fun o => compared typed fun same => ?_
      exact closed.remembered inside kept (same ▸ entry)
    | none =>
      refine parts.bind (fun _ below => ?_) fun e failed => Verdict.of_error fun honest => ?_
      · refine (derive_keeps closed.toStable (inside.plain plain)).bind (fun facts typed => ?_) ?_
        · have holds (same : c.claim = facts) :=
            closed.learned inside (below.sound rfl) (same ▸ typed)
          refine (checkClaim_keeps c facts).bind (fun _ checked => ?_)
            fun e => compared typed fun same => (holds same).1
          cases checked.1 rfl
          intro memory kept
          refine ⟨?_, compared typed (fun same => (holds same).1) checked⟩
          cases memory with
          | none => exact kept
          | some known => exact (holds rfl).2 known kept
        · exact fun e none => Verdict.of_error fun honest => none _ honest.own
      · cases failed.complete fun x => honest.part
  · rintro e ⟨found, ⟨⟩, -⟩

/-- A whole verification preserves the invariant, and its verdict is right. -/
theorem verify_keeps {c : Claimed} (inside : whole.Contains c) :
    Keeps inv (verify c) (Verdict good [c]) := by
  induction c with
  | leaf claim l =>
    rw [verify]
    exact settle_keeps closed plain inside
      (keeps_pure ⟨fun _ => List.forall_mem_nil good, fun _ => rfl⟩)
  | wrap claim w x ih =>
    rw [verify]
    exact settle_keeps closed plain inside (ih (inside.part (by simp [Claimed.children])))
  | pair claim op x y ihx ihy =>
    have left := ihx (inside.part (by simp [Claimed.children]))
    have right := ihy (inside.part (by simp [Claimed.children]))
    rw [verify]
    exact settle_keeps closed plain inside (left.both right)
  | andor claim x y z ihx ihy ihz =>
    have first := ihx (inside.part (by simp [Claimed.children]))
    have second := ihy (inside.part (by simp [Claimed.children]))
    have third := ihz (inside.part (by simp [Claimed.children]))
    rw [verify]
    exact settle_keeps closed plain inside (first.both (second.both third))
  | thresh claim k subs ih =>
    rw [verify]
    apply settle_keeps closed plain inside
    apply verifyAll_keeps
    intro x member
    exact ih x member (inside.part member)

end Verifying

/-- From sound memories, what is accepted claims the facts that it has. -/
theorem closed_sound [Cache.Lawful σ] {whole : Claimed} (plain : whole.fragment.Plain) :
    Closed (fun memory : Memory σ => memory.Sound) whole
      fun c => c.fragment.facts? = .ok c.claim where
  sound := id
  looked := Memory.Sound.looked
  remembered inside _ sound entry := sound.facts? (inside.plain plain) entry
  learned inside _ own := ⟨own, fun _ sound => sound.inserted (inside.plain plain) own⟩

end Verification

/-- The verdict on a tree is right, whatever is remembered, and a sound memory stays sound. -/
theorem Claimed.verify_of_sound {σ : Type} [Cache σ Bytes (Facts Int64)] [Cache.Lawful σ]
    {memory : Memory σ} (sound : memory.Sound) {c : Claimed} (plain : c.fragment.Plain) :
    (c.verify memory).2.Sound ∧
      ((c.verify memory).1 = .ok () → c.fragment.facts? = .ok c.claim) ∧
      (c.Honest → (c.verify memory).1 = .ok ()) := by
  have verified :=
    Verification.verify_keeps (Verification.closed_sound plain) plain .whole memory sound
  refine ⟨verified.1, fun accepted => ?_, fun honest => ?_⟩
  · exact verified.2.sound accepted c List.mem_cons_self
  · exact verified.2.complete (List.forall_mem_singleton.2 honest)

/-! ## Memories that are reached -/

/-- The keys that are read from a text or from the bytes of a script. -/
inductive Key.Given : Key → Prop
  | read {reader : Key.Reader} (standard : reader.Standard) {text : Bytes} {k : Key}
    (found : reader text = .ok k) : Given k
  | decoded {data : Bytes} {k : Key} (found : Key.ofBytes data = .ok k) : Given k

theorem Key.Given.plain {k : Key} (given : k.Given) :
    ∀ b ∈ k.text, Expression.isPunctuation b = false := by
  cases given with
  | read standard found => exact (Key.legible_of_read standard found).plain
  | decoded found =>
    rcases Key.ofBytes_eq_ok_iff.1 found with ⟨p, rfl, -⟩
    exact (Key.legible_point (Key.ofHex_text p)).plain

/-- The memories that any number of verifications lead to, whatever their verdicts. -/
inductive Verification.Reached {σ : Type} [Cache σ Bytes (Facts Int64)] : Memory σ → Prop
  | none : Reached none
  | fresh (limit : Nat) : Reached (.ofLimit limit)
  | verified {memory : Memory σ} (reached : Reached memory) (c : Claimed)
    (given : ∀ key ∈ c.fragment.keys, key.Given) : Reached (c.verify memory).2

section Reaching

variable {σ : Type} [Cache σ Bytes (Facts Int64)] [Cache.Lawful σ] {memory : Memory σ}

theorem Verification.Reached.sound (reached : Reached memory) : memory.Sound := by
  induction reached with
  | none => exact Memory.sound_none
  | fresh limit => exact Memory.sound_ofLimit limit
  | verified reached c given ih =>
    exact (Claimed.verify_of_sound ih fun key inside => (given key inside).plain).1

/-- With any memory that is reached, a tree is accepted only if the whole claims the facts that it
has, and it is accepted if every part does. Of the cache nothing is assumed but that it is lawful. -/
theorem Claimed.verify_of_reached (reached : Verification.Reached memory) {c : Claimed}
    (given : ∀ key ∈ c.fragment.keys, key.Given) :
    ((c.verify memory).1 = .ok () → c.fragment.facts? = .ok c.claim) ∧
      (c.Honest → (c.verify memory).1 = .ok ()) :=
  (verify_of_sound reached.sound fun key inside => (given key inside).plain).2

end Reaching

namespace Claimed

/-- `and_v(v:c:pk(A),after(10))`, in which the whole has the given claim and the parts claim what they
have. -/
def lateKey (claim : Facts Int64) : Claimed :=
  .pair claim .andV
    (.wrap ⟨⟨⟨.V, .oneNonZero, false, false⟩, ⟨.none, true, true⟩⟩,
        ⟨.safe, 35, false, 1, some 1, none⟩⟩ .verify
      (.wrap ⟨⟨⟨.B, .oneNonZero, true, true⟩, ⟨.unique, true, true⟩⟩,
          ⟨.safe, 35, true, 1, some 1, some 1⟩⟩ .check
        (.leaf ⟨⟨⟨.K, .oneNonZero, true, true⟩, ⟨.unique, true, true⟩⟩,
            ⟨.safe, 34, false, 0, some 0, some 0⟩⟩ (.pk (.named (utf8 "A"))))))
    (.leaf ⟨⟨⟨.B, .zero, false, false⟩, ⟨.none, false, true⟩⟩,
      ⟨.safe, 2, false, 1, some 1, none⟩⟩ (.after 10))

/-- The facts that the tree has, with as many operations as given. -/
def lateFacts (ops : Int64) : Facts Int64 :=
  ⟨⟨⟨.B, .oneNonZero, false, false⟩, ⟨.none, true, true⟩⟩, ⟨.safe, 37, false, 2, some ops, none⟩⟩

/-- What is remembered after a tree that claims too few operations, with room for one fragment. -/
def spoilt : Memory RecentFacts := ((lateKey (lateFacts 1)).verify (.ofLimit 1)).2

/-- After a tree has been met that claims too few operations, it is still refused, and the tree with
the right claim is accepted. -/
theorem verify_of_reached_lateKey :
    ((lateKey (lateFacts 1)).verify spoilt).1 ≠ .ok () ∧
      ((lateKey (lateFacts 2)).verify spoilt).1 = .ok () := by
  have given (claim : Facts Int64) : ∀ key ∈ (lateKey claim).fragment.keys, key.Given := by
    have found : Key.ofName (utf8 "A") = .ok (.named (utf8 "A")) := by decide +kernel
    rintro key (_ | ⟨_, ⟨⟩⟩)
    exact .read .name found
  have facts (claim : Facts Int64) : (lateKey claim).fragment.facts? = .ok (lateFacts 2) := rfl
  have reached : Verification.Reached spoilt :=
    .verified (.fresh 1) (lateKey (lateFacts 1)) (given _)
  constructor
  · intro accepted
    have claimed := (verify_of_reached reached (given _)).1 accepted
    exact absurd (Except.ok.inj ((facts _).symm.trans claimed)) (by decide)
  · apply (verify_of_reached reached (given _)).2
    have leaf {claim : Facts Int64} {l : Leaf} (own : (Fragment.leaf l).facts? = .ok claim) :
        (Claimed.leaf claim l).Honest := .intro own (List.forall_mem_nil _)
    refine .intro (facts _) (List.forall_mem_cons.2 ⟨?_, List.forall_mem_singleton.2 (leaf rfl)⟩)
    refine .intro rfl (List.forall_mem_singleton.2 ?_)
    exact .intro rfl (List.forall_mem_singleton.2 (leaf rfl))

end Claimed

end LockScript
