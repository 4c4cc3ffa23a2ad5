import LockScript.Console.Session
import LockScript.Proofs.Decoder.Soundness
import LockScript.Proofs.Verification.Soundness

/-!
Sessions have no history.

All scripts that a session decodes are verified with one memory, which keeps what was found for a
bounded number of fragments. Whatever inputs came before, the memory is sound, and a decoded
fragment claims for each of its parts the facts that the part has. So verification never refuses
one, and an input has the answer that a new session gives to it.
-/

namespace LockScript

/-! ## A checked fragment is honest -/

namespace Fragment

theorem facts?_of_annotated {f : Fragment} {c : Claimed} (annotated : f.annotated = .ok c) :
    f.facts? = .ok c.claim := by
  rw [← f.annotated_claim, annotated]
  rfl

theorem annotatedAll_eq_ok_iff {subs : List Fragment} {cs : List Claimed} :
    annotatedAll subs = .ok cs ↔ List.Forall₂ (fun x c => x.annotated = .ok c) subs cs := by
  induction subs generalizing cs with
  | nil =>
    rw [annotatedAll, List.forall₂_nil_left_iff, Except.ok.injEq, eq_comm]
  | cons x rest ih =>
    rw [annotatedAll, List.forall₂_cons_left_iff]
    simp only [← ih]
    cases x.annotated with
    | error e => simp
    | ok c =>
      cases annotatedAll rest with
      | error e => simp
      | ok others => simp [eq_comm]

/-- The annotated fragment is made of the annotated parts. -/
theorem parts_of_annotated {f : Fragment} {c : Claimed} (annotated : f.annotated = .ok c) :
    List.Forall₂ (fun x cx => x.annotated = .ok cx) f.children c.children ∧
      (c.children.map Claimed.fragment = f.children → c.fragment = f) := by
  cases f with
  | leaf l =>
    simp only [Fragment.annotated] at annotated
    split at annotated
    · cases annotated
    · cases annotated
      exact ⟨.nil, fun _ => rfl⟩
  | wrap w x =>
    simp only [Fragment.annotated] at annotated
    split at annotated
    · cases annotated
    · next cx hx =>
      split at annotated
      · cases annotated
      · cases annotated
        refine ⟨.cons hx .nil, fun same => ?_⟩
        simpa [Claimed.fragment, Claimed.children, children] using same
  | pair op x y =>
    simp only [Fragment.annotated] at annotated
    split at annotated
    · cases annotated
    · cases annotated
    · next cx cy hx hy =>
      split at annotated
      · cases annotated
      · cases annotated
        refine ⟨.cons hx (.cons hy .nil), fun same => ?_⟩
        simpa [Claimed.fragment, Claimed.children, children] using same
  | andor x y z =>
    simp only [Fragment.annotated] at annotated
    split at annotated
    · cases annotated
    · cases annotated
    · cases annotated
    · next cx cy cz hx hy hz =>
      split at annotated
      · cases annotated
      · cases annotated
        refine ⟨.cons hx (.cons hy (.cons hz .nil)), fun same => ?_⟩
        simpa [Claimed.fragment, Claimed.children, children] using same
  | thresh k subs =>
    simp only [Fragment.annotated] at annotated
    split at annotated
    · cases annotated
    · next cs each =>
      split at annotated
      · cases annotated
      · cases annotated
        refine ⟨annotatedAll_eq_ok_iff.1 each, fun same => ?_⟩
        rw [Claimed.fragment, Claimed.fragments_eq_map]
        exact congrArg (Fragment.thresh k) same

theorem honest_parts {xs : List Fragment} {cs : List Claimed}
    (parts : List.Forall₂ (fun x c => x.annotated = .ok c) xs cs)
    (each : ∀ x ∈ xs, ∀ c, x.annotated = .ok c → c.fragment = x ∧ c.Honest) :
    cs.map Claimed.fragment = xs ∧ ∀ c ∈ cs, c.Honest := by
  induction parts with
  | nil => exact ⟨rfl, List.forall_mem_nil _⟩
  | @cons x c xs cs head _ ih =>
    obtain ⟨same, honest⟩ := each x List.mem_cons_self c head
    obtain ⟨sames, honests⟩ := ih fun y member => each y (List.mem_cons_of_mem _ member)
    exact ⟨by rw [List.map_cons, same, sames], List.forall_mem_cons.2 ⟨honest, honests⟩⟩

/-- Every part of the annotated fragment claims the facts that it has. -/
theorem honest_of_annotated {f : Fragment} {c : Claimed} (annotated : f.annotated = .ok c) :
    c.fragment = f ∧ c.Honest := by
  induction deep : f.depth using Nat.strong_induction_on generalizing f c with
  | _ n ih =>
    obtain ⟨parts, rebuilt⟩ := parts_of_annotated annotated
    have each (x : Fragment) (child : x ∈ f.children) (cx : Claimed)
        (own : x.annotated = .ok cx) : cx.fragment = x ∧ cx.Honest := by
      have shallower := depth_lt_of_child child
      exact ih x.depth (deep ▸ shallower) own rfl
    obtain ⟨sames, honests⟩ := honest_parts parts each
    have same := rebuilt sames
    have own : c.fragment.facts? = .ok c.claim := by
      rw [same]
      exact facts?_of_annotated annotated
    exact ⟨same, .intro own honests⟩

/-- A fragment that a script can have has points for keys. -/
theorem Readable.exists_point {f : Fragment} (readable : f.Readable) :
    ∀ key ∈ f.keys, ∃ p, key = .point p := by
  induction f with
  | leaf l =>
    have own := readable_leaf_iff.1 readable
    intro key member
    cases l with
    | pk k =>
      obtain rfl := List.mem_singleton.1 member
      exact own
    | multi k keys => exact own.2.2 key member
    | _ => cases member
  | wrap w x ih => exact ih (readable_wrap.1 readable)
  | pair op x y ihx ihy =>
    obtain ⟨left, right⟩ := readable_pair.1 readable
    intro key member
    rcases List.mem_append.1 member with first | second
    · exact ihx left key first
    · exact ihy right key second
  | andor x y z ihx ihy ihz =>
    obtain ⟨first, second, third⟩ := readable_andor.1 readable
    intro key member
    rcases List.mem_append.1 member with either | inThird
    · rcases List.mem_append.1 either with inFirst | inSecond
      · exact ihx first key inFirst
      · exact ihy second key inSecond
    · exact ihz third key inThird
  | thresh k subs ih =>
    have parts := (readable_thresh.1 readable).1
    intro key member
    rw [keys, keysOf_eq_flatMap] at member
    obtain ⟨x, child, inside⟩ := List.mem_flatMap.1 member
    exact ih x child (parts x child) key inside

end Fragment

theorem Checked.annotated_eq (m : Checked) : m.fragment.annotated = .ok m.claimed := by
  unfold Checked.claimed
  split
  · next c annotated => exact annotated
  · next e annotated =>
    have claims := m.fragment.annotated_claim
    rw [annotated, m.typed] at claims
    cases claims

/-! ## Answers -/

namespace Session

variable {σ : Type} [Cache σ Bytes (Facts Int64)] {p : Plan} {memory : Memory σ} {input : Bytes}

theorem plain_of_decodeInput {m : Checked} (decoded : decodeInput p input = .ok m) :
    m.fragment.Plain := by
  obtain ⟨script, -, found⟩ := bind_eq_ok_iff.1 decoded
  have made : Decoder.decode p.settings script = .ok m := by
    cases outcome : Decoder.decode p.settings script with
    | error e =>
      rw [outcome] at found
      cases found
    | ok m' =>
      rw [outcome] at found
      cases found
      rfl
  have readable := (Decoder.bytes_of_decode rfl made).1.readable
  intro key inside
  obtain ⟨point, rfl⟩ := readable.exists_point key inside
  exact (Key.legible_point (Key.ofHex_text point)).plain

/-- The answers to inputs that are handled one after the other, each in the mode with the name that
comes with it. -/
def answers : Session σ → List (Bytes × Bytes) → List Answer
  | _, [] => []
  | s, (modeName, input) :: rest =>
    let (answer, next) := s.runNamed modeName input
    answer :: next.answers rest

variable [Cache.Lawful σ]

/-- With a sound memory every decoded fragment is accepted, and the memory stays sound. -/
theorem decompile_of_sound (sound : memory.Sound) :
    (decompile p input memory).1 = (decodeInput p input).map (fun m => s!"{shown m.text}\n") ∧
      (decompile p input memory).2.Sound := by
  unfold decompile
  cases decoded : decodeInput p input with
  | error e => exact ⟨rfl, sound⟩
  | ok m =>
    obtain ⟨same, honest⟩ := Fragment.honest_of_annotated m.annotated_eq
    have plain : m.claimed.fragment.Plain := by
      rw [same]
      exact plain_of_decodeInput decoded
    obtain ⟨later, -, complete⟩ := Claimed.verify_of_sound sound plain
    have accepted := complete honest
    dsimp only
    cases verified : m.claimed.verify memory with
    | mk result memory' =>
      rw [verified] at accepted later
      obtain rfl : result = .ok () := accepted
      exact ⟨rfl, later⟩

variable {s : Session σ}

/-- A session with a sound memory answers as a new one does, and its memory stays sound. -/
theorem run_of_sound (sound : s.memory.Sound) (mode : Mode) (input : Bytes) :
    (s.run mode input).1 = ((start s.plan : Session σ).run mode input).1 ∧
      (s.run mode input).2.plan = s.plan ∧ (s.run mode input).2.memory.Sound := by
  cases mode with
  | decompile =>
    have split (t : Session σ) : t.run .decompile input
        = (.plain (decompile t.plan input t.memory).1,
          ⟨t.plan, (decompile t.plan input t.memory).2⟩) := rfl
    have fresh : (start s.plan : Session σ).memory.Sound := Memory.sound_ofLimit s.plan.memoryLimit
    obtain ⟨here, later⟩ := decompile_of_sound sound
    obtain ⟨there, -⟩ := decompile_of_sound fresh
    rw [split, split]
    exact ⟨congrArg Answer.plain (here.trans there.symm), rfl, later⟩
  | _ => exact ⟨rfl, rfl, sound⟩

theorem runNamed_of_sound (sound : s.memory.Sound) (modeName input : Bytes) :
    (s.runNamed modeName input).1 = ((start s.plan : Session σ).runNamed modeName input).1 ∧
      (s.runNamed modeName input).2.plan = s.plan ∧
      (s.runNamed modeName input).2.memory.Sound := by
  unfold runNamed
  cases Mode.ofName? modeName with
  | none => exact ⟨rfl, rfl, sound⟩
  | some mode => exact run_of_sound sound mode input

theorem answers_of_sound (sound : s.memory.Sound) (inputs : List (Bytes × Bytes)) :
    s.answers inputs
      = inputs.map fun given => ((start s.plan : Session σ).runNamed given.1 given.2).1 := by
  induction inputs generalizing s with
  | nil => rfl
  | cons given rest ih =>
    obtain ⟨same, plan, later⟩ := runNamed_of_sound sound given.1 given.2
    have others := ih later
    rw [plan] at others
    exact congrArg₂ List.cons same others

/-- Each input is answered as if it were the only one, whatever lawful cache is used. -/
theorem answers_start (σ : Type) [Cache σ Bytes (Facts Int64)] [Cache.Lawful σ] (plan : Plan)
    (inputs : List (Bytes × Bytes)) :
    (start plan : Session σ).answers inputs
      = inputs.map fun given => ((start plan : Session σ).runNamed given.1 given.2).1 :=
  answers_of_sound (Memory.sound_ofLimit plan.memoryLimit) inputs

/-- Room for one fragment only. -/
def narrowPlan : Plan := ⟨false, 402, 1, .main⟩

/-- The script of `tv:1`, which has three parts, so that some of them are forgotten at once. -/
def crowdingScript : Bytes := utf8 "516951"

theorem answers_start_narrow :
    ((decodeInput narrowPlan crowdingScript).map Checked.text).toOption = some (utf8 "tv:1") ∧
      (start narrowPlan : Session RecentFacts).answers
          (List.replicate 2 (utf8 "decompile", crowdingScript))
        = List.replicate 2 ((start narrowPlan : Session RecentFacts).runNamed (utf8 "decompile")
          crowdingScript).1 :=
  ⟨by decide +kernel, answers_start RecentFacts narrowPlan _⟩

end Session

end LockScript
