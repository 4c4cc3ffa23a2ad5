import LockScript.Proofs.Verification.Soundness

/-!
What a memory hides.

Without a memory a tree is accepted just if every claim in it is right (`verify_none_iff`). With one,
a tree whose text is remembered is compared with what is remembered and not gone into, so that only
the claim of the whole counts (`verify_of_remembered`): a wrong claim further down is passed over. It
is found if no part above it is taken for one that is known already, be it from earlier trees or from
an earlier part of the same tree (`Exposed`).

The first and the last come from the walk through a verification, with two other invariants of the
memory. For the last, the cache must not find again what it has forgotten.
-/

namespace LockScript

/-- Every claim below the whole is right. -/
def Claimed.HonestBelow (c : Claimed) : Prop := ∀ x ∈ c.children, x.Honest

namespace Memory

variable {σ : Type} [Cache σ Bytes (Facts Int64)] {known : σ} {text other : Bytes}

/-- Whether something is found for a text. -/
def remembers (memory : Memory σ) (text : Bytes) : Bool :=
  match memory with
  | none => false
  | some known => (Cache.lookup known text).1.isSome

theorem remembers_eq_false_iff : remembers (some known) text = false ↔ Cache.Lacks known text :=
  Option.isSome_eq_false_iff.trans Option.isNone_iff_eq_none

theorem exists_of_remembers {memory : Memory σ} (remembered : memory.remembers text = true) :
    ∃ known facts, memory = some known ∧ (Cache.lookup known text).1 = some facts := by
  cases memory with
  | none => cases remembered
  | some known =>
    rcases Option.isSome_iff_exists.1 remembered with ⟨facts, entry⟩
    exact ⟨known, facts, rfl, entry⟩

end Memory

/-! ## With a memory and without -/

namespace Claimed

open Verification (Closed verify_keeps)

variable {σ : Type} [Cache σ Bytes (Facts Int64)] {c : Claimed} {memory : Memory σ}

theorem closed_none (σ : Type) [Cache σ Bytes (Facts Int64)] (whole : Claimed) :
    Closed (fun memory : Memory σ => memory = none) whole Honest where
  sound := by
    rintro _ rfl
    exact Memory.sound_none
  looked := by
    rintro known ⟨⟩
  remembered := by
    rintro c - known ⟨⟩
  learned _ below own := ⟨.intro own below, fun known none => by cases none⟩

/-- No part with a wrong claim below it is taken for one that is known: its text is neither
remembered nor the text of a part whose claims are all right. -/
def Exposed (memory : Memory σ) (c : Claimed) : Prop :=
  ∀ x, c.Contains x → ¬ x.HonestBelow →
    memory.remembers x.text = false ∧ ∀ y, c.Contains y → y.Honest → y.text ≠ x.text

theorem verify_eq_settle (c : Claimed) : ∃ verifyParts : Verification.Run σ Unit,
    Verification.verify c = Verification.settle c verifyParts := by
  cases c <;> exact ⟨_, by rw [Verification.verify]⟩

variable [Cache.Lawful σ]

/-- Without a memory a tree is accepted just if every claim in it is right. -/
theorem verify_none_iff (plain : c.fragment.Plain) :
    (c.verify (none : Memory σ)).1 = .ok () ↔ c.Honest := by
  constructor
  · intro accepted
    have verified := verify_keeps (closed_none σ c) plain .whole none rfl
    exact verified.2.sound accepted c List.mem_cons_self
  · exact (verify_of_sound Memory.sound_none plain).2.2

/-- A tree stays exposed: nothing is remembered but the texts of parts whose claims are all right. -/
theorem closed_exposed [Cache.Forgetful σ] {whole : Claimed} (plain : whole.fragment.Plain) :
    Closed (fun memory : Memory σ => memory.Sound ∧ whole.Exposed memory) whole Honest where
  sound kept := kept.1
  looked := by
    rintro known ⟨sound, exposed⟩ text
    refine ⟨sound.looked text, fun x inside wrong => ?_⟩
    rcases exposed x inside wrong with ⟨unknown, unlike⟩
    rw [Memory.remembers_eq_false_iff] at unknown ⊢
    exact ⟨Cache.Forgetful.looked unknown text, unlike⟩
  remembered := by
    rintro c inside known ⟨sound, exposed⟩ entry
    have below : c.HonestBelow := by
      by_contra wrong
      have lacks := Memory.remembers_eq_false_iff.1 (exposed c inside wrong).1
      cases entry.symm.trans lacks
    exact .intro (sound.facts? (inside.plain plain) entry) below
  learned := by
    intro c inside below own
    have honest : c.Honest := .intro own below
    refine ⟨honest, ?_⟩
    rintro known ⟨sound, exposed⟩
    refine ⟨sound.inserted (inside.plain plain) own, fun x inside' wrong => ?_⟩
    rcases exposed x inside' wrong with ⟨unknown, unlike⟩
    rw [Memory.remembers_eq_false_iff] at unknown ⊢
    exact ⟨Cache.Forgetful.inserted unknown (unlike c inside honest).symm c.claim, unlike⟩

/-- If a tree is exposed, all its claims are right when it is accepted. -/
theorem honest_of_verify [Cache.Forgetful σ] (plain : c.fragment.Plain) (sound : memory.Sound)
    (exposed : c.Exposed memory) (accepted : (c.verify memory).1 = .ok ()) : c.Honest := by
  have verified := verify_keeps (closed_exposed plain) plain .whole memory ⟨sound, exposed⟩
  exact verified.2.sound accepted c List.mem_cons_self

/-- A tree whose text is remembered is accepted just if the whole claims the facts that it has,
whatever its parts claim. -/
theorem verify_of_remembered (plain : c.fragment.Plain) (sound : memory.Sound)
    (remembered : memory.remembers c.text = true) :
    (c.verify memory).1 = .ok () ↔ c.fragment.facts? = .ok c.claim := by
  rcases Memory.exists_of_remembers remembered with ⟨known, facts, rfl, entry⟩
  rcases @verify_eq_settle σ _ c with ⟨verifyParts, same⟩
  have judged := (Verification.checkClaim_keeps c facts _ (sound.looked c.fragment.text)).2
  rw [sound.facts? plain entry, Except.ok.injEq, @eq_comm _ facts, verify, same,
    Verification.settle, Verification.run_bind, Verification.run_remembered?_some]
  rw [text] at entry
  simp only [entry]
  exact judged

/-- Without a memory every wrong claim is found. A memory never makes a tree refused that is accepted
without one, and it makes no difference for a tree that is exposed to it. Where the text of the whole
is remembered, its claim alone decides. -/
theorem verify_as_without [Cache.Forgetful σ] (reached : Verification.Reached memory)
    (given : ∀ key ∈ c.fragment.keys, key.Given) :
    ((c.verify (none : Memory σ)).1 = .ok () ↔ c.Honest) ∧
      ((c.verify (none : Memory σ)).1 = .ok () → (c.verify memory).1 = .ok ()) ∧
      (c.Exposed memory →
        ((c.verify memory).1 = .ok () ↔ (c.verify (none : Memory σ)).1 = .ok ())) ∧
      (memory.remembers c.text = true →
        ((c.verify memory).1 = .ok () ↔ c.fragment.facts? = .ok c.claim)) := by
  have plain : c.fragment.Plain := fun key inside => (given key inside).plain
  have without : (c.verify (none : Memory σ)).1 = .ok () ↔ c.Honest := verify_none_iff plain
  have accepted := (verify_of_sound reached.sound plain).2.2
  refine ⟨without, fun ok => accepted (without.1 ok), fun exposed => ?_, ?_⟩
  · rw [without]
    exact ⟨honest_of_verify plain reached.sound exposed, accepted⟩
  · exact verify_of_remembered plain reached.sound

/-- `v:after(10)`, in which the lock time has the given claim. -/
def lateVerified (claim : Facts Int64) : Claimed :=
  .wrap ⟨⟨⟨.V, .zero, false, false⟩, ⟨.none, false, true⟩⟩, ⟨.safe, 3, false, 2, some 2, none⟩⟩
    .verify (.leaf claim (.after 10))

/-- The facts of a lock time with a script of the given size. -/
def lockFacts (size : Int64) : Facts Int64 :=
  ⟨⟨⟨.B, .zero, false, false⟩, ⟨.none, false, true⟩⟩, ⟨.safe, size, false, 1, some 1, none⟩⟩

/-- What is remembered after `lateKey`, of which the lock time is a part as well. -/
def lateMemory : Memory RecentFacts := ((lateKey (lateFacts 2)).verify (.ofLimit 10)).2

/-- A lock time that claims a size of 3 is found in `v:after(10)`, which is not remembered. -/
theorem verify_as_without_lateVerified :
    (lateVerified (lockFacts 3)).Exposed lateMemory ∧
      ((lateVerified (lockFacts 3)).verify (none : Memory RecentFacts)).1 ≠ .ok () ∧
      ((lateVerified (lockFacts 3)).verify lateMemory).1 ≠ .ok () := by
  have given : ∀ key ∈ (lateKey (lateFacts 2)).fragment.keys, key.Given := by
    have found : Key.ofName (utf8 "A") = .ok (.named (utf8 "A")) := by decide +kernel
    rintro key (_ | ⟨_, ⟨⟩⟩)
    exact .read .name found
  have wrong : ¬ (lateVerified (lockFacts 3)).Honest := by
    intro honest
    have own := (honest.part List.mem_cons_self).own
    exact absurd (Except.ok.inj own) (by decide)
  have parts {x : Claimed} (inside : (lateVerified (lockFacts 3)).Contains x) :
      x = lateVerified (lockFacts 3) ∨ x = .leaf (lockFacts 3) (.after 10) := by
    induction inside with
    | whole => exact .inl rfl
    | part _ child ih =>
      rcases ih with rfl | rfl
      · exact .inr (List.mem_singleton.1 child)
      · cases child
  have exposed : (lateVerified (lockFacts 3)).Exposed lateMemory := by
    intro x inside below
    rcases parts inside with rfl | rfl
    · refine ⟨by decide +kernel, fun y inside' honest => ?_⟩
      rcases parts inside' with rfl | rfl
      · exact absurd honest wrong
      · decide +kernel
    · exact absurd (List.forall_mem_nil _) below
  have reached : Verification.Reached lateMemory := .verified (.fresh 10) _ given
  rcases @verify_as_without RecentFacts _ (lateVerified (lockFacts 3)) _ _ _ reached
      (List.forall_mem_nil _) with
    ⟨without, -, same, -⟩
  have refused : ((lateVerified (lockFacts 3)).verify (none : Memory RecentFacts)).1 ≠ .ok () :=
    fun accepted => wrong (without.1 accepted)
  exact ⟨exposed, refused, fun accepted => refused ((same exposed).1 accepted)⟩

/-- `a:or_b(c:pk(A),s:c:pk(B))`, in which the `or_b` has the given claim and all other parts claim
what they have. -/
def eitherBelow (claim : Facts Int64) : Claimed :=
  let pk : Facts Int64 := ⟨⟨⟨.K, .oneNonZero, true, true⟩, ⟨.unique, true, true⟩⟩,
    ⟨.safe, 34, false, 0, some 0, some 0⟩⟩
  let checked : Facts Int64 := ⟨⟨⟨.B, .oneNonZero, true, true⟩, ⟨.unique, true, true⟩⟩,
    ⟨.safe, 35, true, 1, some 1, some 1⟩⟩
  .wrap ⟨⟨⟨.W, .any, true, true⟩, ⟨.unique, true, true⟩⟩, ⟨.safe, 74, false, 6, some 6, some 6⟩⟩
    .alt
    (.pair claim .orB (.wrap checked .check (.leaf pk (.pk (.named (utf8 "A")))))
      (.wrap ⟨⟨⟨.W, .any, true, true⟩, ⟨.unique, true, true⟩⟩, ⟨.safe, 36, true, 2, some 2, some 2⟩⟩
        .swap (.wrap checked .check (.leaf pk (.pk (.named (utf8 "B")))))))

/-- The facts of the `or_b` with the given input, which is `any`. -/
def eitherFacts (input : Input) : Facts Int64 :=
  ⟨⟨⟨.B, input, true, true⟩, ⟨.unique, true, true⟩⟩, ⟨.safe, 72, false, 4, some 4, some 4⟩⟩

/-- Once `a:or_b(c:pk(A),s:c:pk(B))` has been accepted, it is also accepted with an `or_b` that
claims to be an `and_b` by its input. -/
theorem verify_passes_over :
    ¬ ∀ memory : Memory RecentFacts, Verification.Reached memory → ∀ c : Claimed,
      (∀ key ∈ c.fragment.keys, key.Given) →
        ((c.verify memory).1 = .ok () ↔ (c.verify (none : Memory RecentFacts)).1 = .ok ()) := by
  intro same
  have given (claim : Facts Int64) : ∀ key ∈ (eitherBelow claim).fragment.keys, key.Given := by
    have first : Key.ofName (utf8 "A") = .ok (.named (utf8 "A")) := by decide +kernel
    have second : Key.ofName (utf8 "B") = .ok (.named (utf8 "B")) := by decide +kernel
    rintro key (_ | ⟨_, _ | ⟨_, ⟨⟩⟩⟩)
    · exact .read .name first
    · exact .read .name second
  have plain (claim : Facts Int64) : (eitherBelow claim).fragment.Plain :=
    fun key inside => (given claim key inside).plain
  let known : Memory RecentFacts := ((eitherBelow (eitherFacts .any)).verify (.ofLimit 10)).2
  have reached : Verification.Reached known :=
    .verified (.fresh 10) (eitherBelow (eitherFacts .any)) (given _)
  have remembered : known.remembers (eitherBelow (eitherFacts .anyNonZero)).text = true := by
    decide +kernel
  have accepted := (verify_of_remembered (plain _) reached.sound remembered).2 rfl
  have honest := (verify_none_iff (plain _)).1 ((same _ reached _ (given _)).1 accepted)
  have own := (honest.part List.mem_cons_self).own
  exact absurd (Except.ok.inj own) (by decide)

end Claimed

end LockScript
