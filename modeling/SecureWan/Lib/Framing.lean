import Mathlib.Data.List.ReduceOption
import SecureWan.Lib.Segmentation

/-!
# Frames on a line

A line is a sequence of places, each with a symbol of a frame or idle; its frames are the
groups of consecutive symbols. A line is laid out in blocks, with idle time between some of
them. Two layouts of the same blocks have the same frames exactly when they agree on where
idle time cuts a frame in two.
-/

namespace SecureWan.Framing

open Segmentation

variable {γ : Type*}

/-- The places of a line, in order. -/
abbrev Line (γ : Type*) := List (Option γ)

/-- The frames of a line. -/
def frames (l : Line γ) : Segmentation (Option γ) := Runs.run (push Option.isSome) start l

/-- The symbols of a line with the numbers of their frames. -/
def numbered (l : Line γ) : List (Option γ × ℕ) := (frames l).numbered

/-- The first place of a block is in a frame. -/
def begins : Line γ → Bool
  | some _ :: _ => true
  | _ => false

/-- The last place of a block is in a frame. -/
def ends (b : Line γ) : Bool := begins b.reverse

/-- The line of a log of blocks, with `k` idle places where there was no block. -/
def lineOf (k : ℕ) : List (Option (Line γ)) → Line γ
  | [] => []
  | none :: log => List.replicate k none ++ lineOf k log
  | some b :: log => b ++ lineOf k log

/-- The blocks of a log, each with a mark whether there was idle time right before it. -/
def gaps : Bool → List (Option (Line γ)) → List (Bool × Line γ)
  | _, [] => []
  | _, none :: log => gaps true log
  | idle, some b :: log => (idle, b) :: gaps false log

/-- Two layouts of the same blocks agree on idle time between places that are in frames. -/
def Aligned : Bool → List (Bool × Line γ) → List (Bool × Line γ) → Prop
  | isOpen, (idle, b) :: t, (idle', _) :: r =>
    (isOpen = true → begins b = true → idle = idle') ∧ Aligned (ends b) t r
  | _, _, _ => True

instance decidableAligned : (isOpen : Bool) → (t r : List (Bool × Line γ)) →
    Decidable (Aligned isOpen t r)
  | isOpen, (idle, b) :: t, (idle', _) :: r =>
    have := decidableAligned (ends b) t r
    inferInstanceAs (Decidable ((isOpen = true → begins b = true → idle = idle') ∧
      Aligned (ends b) t r))
  | _, [], _ => isTrue (by simp [Aligned])
  | _, _ :: _, [] => isTrue (by simp [Aligned])

/-- The line of a layout. -/
def lay (t : List (Bool × Line γ)) : Line γ :=
  t.flatMap fun y => (if y.1 then [none] else []) ++ y.2

theorem lineOf_append (k : ℕ) (a b : List (Option (Line γ))) :
    lineOf k (a ++ b) = lineOf k a ++ lineOf k b := by
  induction a with
  | nil => rfl
  | cons block a ih => cases block <;> simp [lineOf, ih]

/-- The blocks of a log. -/
theorem map_snd_gaps (idle : Bool) (log : List (Option (Line γ))) :
    (gaps idle log).map Prod.snd = log.reduceOption := by
  induction log generalizing idle with
  | nil => rfl
  | cons block log ih => cases block <;> simp [gaps, ih]

/-- The symbols of a log are those of its blocks. -/
theorem filter_lineOf (k : ℕ) (log : List (Option (Line γ))) :
    (lineOf k log).filter Option.isSome = log.reduceOption.flatten.filter Option.isSome := by
  induction log with
  | nil => rfl
  | cons block log ih => cases block <;> simp [lineOf, ih]

variable {g : Segmentation (Option γ)} {b : Line γ}

/-- The symbols of a line, in order, are those that are numbered. -/
theorem map_fst_numbered (l : Line γ) : (numbered l).map Prod.fst = l.filter Option.isSome := by
  rw [numbered, Segmentation.numbered, map_fst_numberedFrom]
  exact flatten_groups_run start l

theorem length_numbered (l : Line γ) :
    (numbered l).length = (l.filter Option.isSome).length := by
  rw [← map_fst_numbered, List.length_map]

theorem numbered_prefix_append (l l' : Line γ) : numbered l <+: numbered (l ++ l') := by
  rw [numbered, numbered, frames, frames, Runs.run_append]
  exact numbered_prefix_run _ _

/-- The state behind some idle time, or behind none. -/
def after (idle : Bool) (g : Segmentation (Option γ)) : Segmentation (Option γ) :=
  if idle then push Option.isSome g none else g

theorem push_none : push Option.isSome g none = ⟨g.groups, []⟩ := push_of_neg (by simp)

theorem push_none_of_nil (h : g.current = []) : push Option.isSome g none = g := by
  rcases g.groups_of_current with ⟨-, hgroups⟩ | ⟨hne, -⟩
  · rw [push_none, hgroups, ← h]
  · exact absurd h hne

/-- More idle time changes nothing. -/
theorem push_none_none : push Option.isSome (push Option.isSome g none) none =
    push Option.isSome g none :=
  push_none_of_nil (by rw [push_none])

theorem run_replicate_none (k : ℕ) :
    Runs.run (push Option.isSome) g (List.replicate (k + 1) none) =
      push Option.isSome g none := by
  induction k generalizing g with
  | zero => rfl
  | succ k ih => rw [List.replicate_succ, Runs.run_cons, ih, push_none_none]

theorem numbered_after (idle : Bool) : (after idle g).numbered = g.numbered := by
  cases idle with
  | false => rfl
  | true => exact numbered_push_of_neg (p := Option.isSome) (x := none) (by simp)

theorem run_lay_cons (idle : Bool) (t : List (Bool × Line γ)) :
    Runs.run (push Option.isSome) g (lay ((idle, b) :: t)) =
      Runs.run (push Option.isSome) (Runs.run (push Option.isSome) (after idle g) b) (lay t) := by
  rw [lay, List.flatMap_cons, Runs.run_append, Runs.run_append]
  cases idle <;> rfl

/-- A log and the layout of its blocks have the same frames. -/
theorem numbered_lineOf {k : ℕ} (hk : 0 < k) (idle : Bool) (log : List (Option (Line γ))) :
    (Runs.run (push Option.isSome) (after idle g) (lineOf k log)).numbered =
      (Runs.run (push Option.isSome) g (lay (gaps idle log))).numbered := by
  obtain ⟨k, rfl⟩ := Nat.exists_eq_add_one.mpr hk
  induction log generalizing g idle with
  | nil => exact numbered_after idle
  | cons block log ih =>
    cases block with
    | none =>
      have hpush : push Option.isSome (after idle g) none = after true g := by
        cases idle with
        | false => rfl
        | true => exact push_none_none
      rw [lineOf, Runs.run_append, run_replicate_none, gaps, ← ih true, hpush]
    | some b =>
      rw [lineOf, Runs.run_append, gaps, run_lay_cons, ← ih false]
      rfl

/-- Behind a block, a frame is open when the block ends within it. -/
theorem current_run (hne : b ≠ []) :
    (Runs.run (push Option.isSome) g b).current ≠ [] ↔ ends b = true := by
  induction b using List.reverseRecOn with
  | nil => exact absurd rfl hne
  | append_singleton b x _ =>
    rw [Runs.run_append, Runs.run_cons, Runs.run_nil, ends, List.reverse_append]
    cases x with
    | none =>
      rw [push_none]
      simp [begins]
    | some x =>
      rw [push_of_pos (by simp)]
      simp [begins]

/-- Idle time before a block makes a difference only within a frame. -/
theorem run_after (h : g.current = [] ∨ begins b = false) (hne : b ≠ []) (idle : Bool) :
    Runs.run (push Option.isSome) (after idle g) b = Runs.run (push Option.isSome) g b := by
  cases idle with
  | false => rfl
  | true =>
    rcases h with hnil | hbegins
    · rw [after, if_pos rfl, push_none_of_nil hnil]
    · cases b with
      | nil => exact absurd rfl hne
      | cons x b =>
        cases x with
        | some x => cases hbegins
        | none => rw [after, if_pos rfl, Runs.run_cons, Runs.run_cons, push_none_none]

/-- The first symbol of a block tells whether idle time came before it. -/
theorem idle_eq_of_prefix {x : γ} {idle idle' : Bool} {l l' : Line γ} (hopen : g.current ≠ [])
    (h : (Runs.run (push Option.isSome) (after idle g) (some x :: l)).numbered <+:
      (Runs.run (push Option.isSome) (after idle' g) (some x :: l')).numbered) :
    idle = idle' := by
  have hnumber (i : Bool) (l : Line γ) :
      g.numbered ++ [(some x, g.closed.length + i.toNat)] <+:
        (Runs.run (push Option.isSome) (after i g) (some x :: l)).numbered := by
    have hclosed : (after i g).closed.length = g.closed.length + i.toNat := by
      cases i with
      | false => rfl
      | true =>
        rcases g.groups_of_current with ⟨hnil, -⟩ | ⟨-, hgroups⟩
        · exact absurd hnil hopen
        · rw [after, if_pos rfl, push_none, hgroups, List.length_append, List.length_singleton]
          rfl
    rw [Runs.run_cons, ← hclosed, ← numbered_after i,
      ← numbered_push_of_pos (p := Option.isSome) (x := some x) rfl]
    exact numbered_prefix_run _ l
  have hsame := List.prefix_of_prefix_length_le ((hnumber idle l).trans h) (hnumber idle' l')
    (by simp)
  have hlast := hsame.eq_of_length (by simp)
  simp only [List.append_cancel_left_eq, List.cons.injEq, Prod.mk.injEq, true_and, and_true,
    Nat.add_left_cancel_iff] at hlast
  revert hlast
  cases idle <;> cases idle' <;> simp

/-- **Two layouts.** The frames of the first are, symbol for symbol, the first ones of the
second exactly when the layouts agree on idle time within frames. -/
theorem numbered_lay_prefix_iff {t r : List (Bool × Line γ)}
    (hblocks : t.map Prod.snd <+: r.map Prod.snd) (hne : ∀ y ∈ t, y.2 ≠ []) {isOpen : Bool}
    (hopen : g.current ≠ [] ↔ isOpen = true) :
    (Runs.run (push Option.isSome) g (lay t)).numbered <+:
        (Runs.run (push Option.isSome) g (lay r)).numbered ↔ Aligned isOpen t r := by
  induction t generalizing r g isOpen with
  | nil =>
    have hnil : Aligned isOpen [] r := by
      unfold Aligned
      trivial
    exact iff_of_true (numbered_prefix_run g (lay r)) hnil
  | cons y t ih =>
    obtain ⟨idle, b⟩ := y
    obtain ⟨hb, hne⟩ := List.forall_mem_cons.mp hne
    cases r with
    | nil => simp at hblocks
    | cons z r =>
      obtain ⟨idle', b'⟩ := z
      simp only [List.map_cons, List.cons_prefix_cons] at hblocks
      obtain ⟨rfl, hblocks⟩ := hblocks
      rw [run_lay_cons, run_lay_cons, Aligned]
      have hsame (heq : Runs.run (push Option.isSome) (after idle g) b =
          Runs.run (push Option.isSome) (after idle' g) b) :
          (Runs.run (push Option.isSome) (Runs.run (push Option.isSome) (after idle g) b)
              (lay t)).numbered <+:
            (Runs.run (push Option.isSome) (Runs.run (push Option.isSome) (after idle' g) b)
              (lay r)).numbered ↔ Aligned (ends b) t r := by
        rw [heq]
        exact ih hblocks hne (current_run hb)
      by_cases hfree : g.current = [] ∨ begins b = false
      · have heq := (run_after hfree hb idle).trans (run_after hfree hb idle').symm
        have hvacuous : isOpen = true → begins b = true → idle = idle' := by
          intro hisOpen hbegins
          rcases hfree with hnil | hnot
          · exact absurd hnil (hopen.mpr hisOpen)
          · rw [hbegins] at hnot
            cases hnot
        rw [hsame heq]
        exact (and_iff_right hvacuous).symm
      · obtain ⟨hcur, hbegins⟩ := not_or.mp hfree
        rw [Bool.not_eq_false] at hbegins
        constructor
        · intro h
          obtain ⟨x, l, rfl⟩ : ∃ x l, b = some x :: l := by
            cases b with
            | nil => exact absurd rfl hb
            | cons x l =>
              cases x with
              | none => cases hbegins
              | some x => exact ⟨x, l, rfl⟩
          have hidle : idle = idle' := by
            rw [← Runs.run_append, ← Runs.run_append] at h
            exact idle_eq_of_prefix hcur h
          exact ⟨fun _ _ => hidle, (hsame (by rw [hidle])).mp h⟩
        · rintro ⟨hidle, haligned⟩
          have heq := hidle (hopen.mp hcur) hbegins
          exact (hsame (by rw [heq])).mpr haligned

/-- Idle time at the beginning does not matter. -/
theorem numbered_lay_gaps {k : ℕ} (hk : 0 < k) (idle : Bool) (log : List (Option (Line γ))) :
    numbered (lay (gaps idle log)) = numbered (lineOf k log) := by
  have hstart : after idle start = (start : Segmentation (Option γ)) := by
    cases idle with
    | false => rfl
    | true => exact push_none_of_nil rfl
  rw [numbered, frames, ← numbered_lineOf hk, hstart]
  rfl

/-- Whether a log begins with idle time does not matter for the agreement. -/
theorem aligned_gaps (idle idle' : Bool) (log : List (Option (Line γ)))
    (r : List (Bool × Line γ)) :
    Aligned false (gaps idle log) r ↔ Aligned false (gaps idle' log) r := by
  cases log with
  | nil => exact Iff.rfl
  | cons block log =>
    cases block with
    | none => exact Iff.rfl
    | some b =>
      cases r with
      | nil => exact Iff.rfl
      | cons y r => simp [gaps, Aligned]

/-- **Two logs.** When the blocks of the first are the first ones of the second, its frames are,
symbol for symbol, the first ones of the second exactly when the logs agree on idle time
within frames. -/
theorem numbered_lineOf_prefix_iff {k : ℕ} (hk : 0 < k) {sent received : List (Option (Line γ))}
    (hblocks : sent.reduceOption <+: received.reduceOption)
    (hne : ∀ b ∈ sent.reduceOption, b ≠ []) :
    numbered (lineOf k sent) <+: numbered (lineOf k received) ↔
      Aligned false (gaps false sent) (gaps false received) := by
  rw [← numbered_lay_gaps hk false sent, ← numbered_lay_gaps hk false received]
  apply numbered_lay_prefix_iff
  · rwa [map_snd_gaps, map_snd_gaps]
  · intro y hy
    apply hne
    rw [← map_snd_gaps false]
    exact List.mem_map_of_mem hy
  · simp [start]

/-! ### Lines of which blocks are lost -/

/-- The line of a log, each place with the mark of its block: whether it was lost. -/
def marked (k : ℕ) (log : List (Option (Line γ) × Bool)) : List (Option γ × Bool) :=
  log.flatMap fun y => (y.1.getD (List.replicate k none)).map fun x => (x, y.2)

/-- The frames of a line with marks. -/
def markedFrames (k : ℕ) (log : List (Option (Line γ) × Bool)) : List (List (Option γ × Bool)) :=
  (Runs.run (push fun x => x.1.isSome) start (marked k log)).groups

/-- The blocks of a log that are not lost. -/
def unlost (log : List (Option (Line γ) × Bool)) : List (Line γ) :=
  ((log.filter fun y => !y.2).map Prod.fst).reduceOption

/-- Without the marks, it is the line of the log. -/
theorem map_fst_marked (k : ℕ) (log : List (Option (Line γ) × Bool)) :
    (marked k log).map Prod.fst = lineOf k (log.map Prod.fst) := by
  induction log with
  | nil => rfl
  | cons y log ih =>
    obtain ⟨block, lost⟩ := y
    rw [marked, List.flatMap_cons, List.map_append, List.map_map]
    change _ ++ (marked k log).map Prod.fst = _
    rw [ih]
    cases block <;> simp [lineOf, Function.comp_def]

/-- The frames are those of the line. -/
theorem map_markedFrames (k : ℕ) (log : List (Option (Line γ) × Bool)) :
    (markedFrames k log).map (List.map Prod.fst) =
      (frames (lineOf k (log.map Prod.fst))).groups := by
  rw [markedFrames, ← groups_map, ← run_map (p := Option.isSome), map_fst_marked]
  rfl

/-- The symbols without a mark are those of the blocks that are not lost. -/
theorem filter_marked (k : ℕ) (log : List (Option (Line γ) × Bool)) :
    (((marked k log).filter fun x => x.1.isSome).filter fun x => !x.2).map Prod.fst =
      (unlost log).flatten.filter Option.isSome := by
  induction log with
  | nil => rfl
  | cons y log ih =>
    obtain ⟨block, lost⟩ := y
    have hcons : marked k ((block, lost) :: log) =
        (block.getD (List.replicate k none)).map (fun x => (x, lost)) ++ marked k log := rfl
    rw [hcons, List.filter_append, List.filter_append, List.map_append, ih]
    cases lost with
    | true => simp [unlost]
    | false => cases block <;> simp [unlost, List.filter_map, Function.comp_def]

/-- **Frames that lose nothing.** A frame without a mark is contiguous among the symbols of the
blocks that are not lost. -/
theorem infix_of_unmarked {k : ℕ} {log : List (Option (Line γ) × Bool)}
    {f : List (Option γ × Bool)} (hf : f ∈ markedFrames k log) (hmarks : ∀ x ∈ f, x.2 = false) :
    f.map Prod.fst <:+: (unlost log).flatten.filter Option.isSome := by
  have hall : f <:+: (marked k log).filter fun x => x.1.isSome := by
    have hflat := flatten_groups_run (p := fun x : Option γ × Bool => x.1.isSome) start
      (marked k log)
    rw [show (start : Segmentation (Option γ × Bool)).groups.flatten = [] from rfl,
      List.nil_append] at hflat
    rw [← hflat]
    exact List.infix_of_mem_flatten hf
  have hself : f.filter (fun x => !x.2) = f := by
    apply List.filter_eq_self.mpr
    intro x hx
    rw [hmarks x hx]
    rfl
  rw [← filter_marked, ← hself]
  exact (hall.filter _).map _

end SecureWan.Framing
