import SecureWan.Lib.Runs
import Mathlib.Data.List.Basic
import Mathlib.Data.List.Nodup

/-!
# Interleaved programs

Threads run a list of statements each on a shared state. An interleaving is a list of
statements with their threads in which the statements of each thread are its program, in
order. What a thread reads from a shared variable depends on who has written it last.
-/

namespace SecureWan.Interleaving

variable {τ α σ β : Type*}

/-- The thread that has last executed one of some statements. -/
def lastWriter (writes : α → Bool) (trace : List (τ × α)) : Option τ :=
  ((trace.filter fun y => writes y.2).getLast?).map Prod.fst

section Programs

variable [DecidableEq τ]

/-- The statements of one thread. -/
def ofThread (t : τ) (trace : List (τ × α)) : List α :=
  (trace.filter fun y => y.1 == t).map Prod.snd

/-- The statements of each thread are its program. -/
def IsInterleaving (prog : τ → List α) (trace : List (τ × α)) : Prop :=
  ∀ t, ofThread t trace = prog t

variable {prog : τ → List α} {trace before behind : List (τ × α)} {t : τ} {a b : α}

theorem mem_ofThread : a ∈ ofThread t trace ↔ (t, a) ∈ trace := by
  rw [ofThread, List.mem_map]
  constructor
  · rintro ⟨⟨u, c⟩, hmem, rfl⟩
    obtain ⟨hin, ht⟩ := List.mem_filter.mp hmem
    rwa [← eq_of_beq ht]
  · intro hmem
    exact ⟨(t, a), List.mem_filter.mpr ⟨hmem, beq_self_eq_true t⟩, rfl⟩

theorem ofThread_append (t : τ) (x y : List (τ × α)) :
    ofThread t (x ++ y) = ofThread t x ++ ofThread t y := by
  rw [ofThread, List.filter_append, List.map_append]
  rfl

theorem ofThread_map (t u : τ) (l : List α) :
    ofThread t (l.map (Prod.mk u)) = if u = t then l else [] := by
  induction l with
  | nil => simp [ofThread]
  | cons b l ih =>
    rw [List.map_cons, ← List.singleton_append, ofThread_append, ih]
    by_cases hu : u = t
    · simp [ofThread, hu]
    · simp [ofThread, hu]

/-- One thread after the other, where there are two. -/
theorem isInterleaving_serial {first second : τ} (hne : first ≠ second)
    (hall : ∀ t, t = first ∨ t = second) :
    IsInterleaving prog
      ((prog first).map (Prod.mk first) ++ (prog second).map (Prod.mk second)) := by
  intro t
  rw [ofThread_append, ofThread_map, ofThread_map]
  rcases hall t with rfl | rfl
  · rw [if_pos rfl, if_neg hne.symm, List.append_nil]
  · rw [if_neg hne, if_pos rfl, List.nil_append]

/-- A statement of the trace splits the program of its thread. -/
theorem IsInterleaving.split (h : IsInterleaving prog (before ++ (t, a) :: behind)) :
    prog t = ofThread t before ++ a :: ofThread t behind := by
  rw [← h t, ofThread_append]
  simp [ofThread]

/-- A thread executes statements of its program only. -/
theorem IsInterleaving.mem_program (h : IsInterleaving prog trace) (hmem : (t, a) ∈ trace) :
    a ∈ prog t := by
  rw [← h t]
  exact mem_ofThread.mpr hmem

/-- Each statement of a program is somewhere in the trace. -/
theorem IsInterleaving.exists_split (h : IsInterleaving prog trace) (ha : a ∈ prog t) :
    ∃ before behind, trace = before ++ (t, a) :: behind := by
  rw [← h t, mem_ofThread] at ha
  exact List.append_of_mem ha

/-- A statement that is in a program once comes only once. -/
theorem IsInterleaving.not_mem_behind (h : IsInterleaving prog (before ++ (t, a) :: behind))
    (hnodup : (prog t).Nodup) : (t, a) ∉ behind := by
  rw [h.split, List.nodup_append] at hnodup
  intro hmem
  exact (List.nodup_cons.mp hnodup.2.1).1 (mem_ofThread.mpr hmem)

/-- Of two statements of a thread, one that never comes behind the other comes before it. -/
theorem IsInterleaving.mem_before (h : IsInterleaving prog (before ++ (t, a) :: behind))
    (hb : b ∈ prog t) (hne : b ≠ a) (horder : (prog t).Pairwise fun x y => x = a → y ≠ b) :
    (t, b) ∈ before := by
  rw [h.split] at hb horder
  rcases List.mem_append.mp hb with hbefore | hbehind
  · exact mem_ofThread.mp hbefore
  · rcases List.mem_cons.mp hbehind with heq | htail
    · exact absurd heq hne
    · have hpair := (List.pairwise_cons.mp (List.pairwise_append.mp horder).2.1).1
      exact absurd rfl (hpair b htail rfl)

end Programs

/-! ### Shared variables -/

variable {trace before behind : List (τ × α)} {t : τ} {a : α} {step : σ → τ × α → σ}
  {writes : α → Bool}

theorem lastWriter_concat (y : τ × α) :
    lastWriter writes (before ++ [y]) =
      if writes y.2 then some y.1 else lastWriter writes before := by
  rw [lastWriter, List.filter_append]
  cases hy : writes y.2 with
  | true => simp [hy]
  | false => simp [hy, lastWriter]

/-- Somebody has written a variable once a statement that does so has been executed. -/
theorem lastWriter_isSome (hmem : (t, a) ∈ trace) (ha : writes a = true) :
    (lastWriter writes trace).isSome = true := by
  have hne : (trace.filter fun y => writes y.2) ≠ [] :=
    List.ne_nil_of_mem (List.mem_filter.mpr ⟨hmem, ha⟩)
  rw [lastWriter, List.getLast?_eq_some_getLast hne]
  rfl

/-- A thread that has written a variable and has been alone since is its last writer. -/
theorem lastWriter_of_alone (hmem : (t, a) ∈ behind) (ha : writes a = true)
    (halone : ∀ y ∈ behind, y.1 = t) : lastWriter writes (before ++ behind) = some t := by
  have hne : behind.filter (fun y => writes y.2) ≠ [] :=
    List.ne_nil_of_mem (List.mem_filter.mpr ⟨hmem, ha⟩)
  have hlast := List.mem_of_mem_filter (List.getLast_mem hne)
  rw [lastWriter, List.filter_append, List.getLast?_append_of_ne_nil _ hne,
    List.getLast?_eq_some_getLast hne, Option.map_some, halone _ hlast]

/-- **The value of a shared variable** is that of its last writer. -/
theorem run_eq_lastWriter (read : σ → β) (value : τ → β)
    (hwrite : ∀ s y, y ∈ trace → writes y.2 = true → read (step s y) = value y.1)
    (hkeep : ∀ s y, writes y.2 = false → read (step s y) = read s) (s : σ) :
    read (Runs.run step s trace) = ((lastWriter writes trace).map value).getD (read s) := by
  induction trace using List.reverseRecOn with
  | nil => rfl
  | append_singleton trace y ih =>
    have hrest := ih fun s y hy => hwrite s y (List.mem_append_left _ hy)
    rw [Runs.run_append, Runs.run_cons, Runs.run_nil, lastWriter_concat]
    cases hy : writes y.2 with
    | true =>
      rw [hwrite _ y (by simp) hy, if_pos rfl]
      rfl
    | false =>
      rw [hkeep _ y hy, hrest]
      rfl

/-- Where each thread writes a value of its own, a thread finds its value exactly when it has
been the last one to write. -/
theorem run_eq_own_iff {u : τ} (read : σ → β) {value : τ → β} (hinj : Function.Injective value)
    (hwrite : ∀ s y, y ∈ trace → writes y.2 = true → read (step s y) = value y.1)
    (hkeep : ∀ s y, writes y.2 = false → read (step s y) = read s)
    (hmem : (u, a) ∈ trace) (ha : writes a = true) (s : σ) :
    read (Runs.run step s trace) = value t ↔ lastWriter writes trace = some t := by
  obtain ⟨v, hv⟩ := Option.isSome_iff_exists.mp (lastWriter_isSome hmem ha)
  rw [run_eq_lastWriter read value hwrite hkeep, hv, Option.map_some, Option.getD_some,
    hinj.eq_iff, Option.some_inj]

/-- What no statement of a run changes stays. -/
theorem run_eq_of_untouched (read : σ → β) (h : ∀ y ∈ trace, ∀ s, read (step s y) = read s)
    (s : σ) : read (Runs.run step s trace) = read s := by
  induction trace generalizing s with
  | nil => rfl
  | cons y trace ih =>
    obtain ⟨hy, hrest⟩ := List.forall_mem_cons.mp h
    rw [Runs.run_cons, ih hrest, hy]

/-- What a statement leaves stays when no later one changes it. -/
theorem run_eq_of_untouched_behind {y : τ × α} (read : σ → β)
    (h : ∀ z ∈ behind, ∀ s, read (step s z) = read s) (s : σ) :
    read (Runs.run step s (before ++ y :: behind)) = read (step (Runs.run step s before) y) := by
  rw [Runs.run_append, Runs.run_cons]
  exact run_eq_of_untouched read h _

end SecureWan.Interleaving
