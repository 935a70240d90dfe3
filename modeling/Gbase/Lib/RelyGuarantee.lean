import Gbase.Lib.Run

/-!
# Two threads on shared memory

A thread is a program of atomic steps, and a scheduler gives every turn to one of two threads.  A
thread that has come to the end of its program begins another one, so each thread repeats calls.
Programs are reasoned about one at a time: a triple says what a program does if the other thread
changes the memory only as its *rely* allows, and that each of its own steps is defined and as its
*guarantee* says.

## Main results

* `Triple.bind`, `Triple.atom`, `Triple.weaken`: the rules for programs.
* `threads_along`: if the guarantee of each thread is within the rely of the other, then along every
  run of the two all steps are defined and as the guarantees say.
-/

namespace Gbase.Lib.RelyGuarantee

open Gbase.Lib.Run

variable {σ ι ο α β γ δ : Type}

/-! ## Programs -/

/-- A program of atomic steps on a memory.  Each turn has an input, by which the scheduler settles
what the program leaves open. -/
inductive Prog (σ ι ο α : Type)
  | ret (a : α)
  | act (f : Step σ ι ο) (k : σ → ι → Prog σ ι ο α)

def Prog.bind : Prog σ ι ο α → (α → Prog σ ι ο β) → Prog σ ι ο β
  | .ret a, k => k a
  | .act f next, k => .act f fun s i => (next s i).bind k

instance : Monad (Prog σ ι ο) where
  pure := .ret
  bind := Prog.bind

/-- A single step that gives a value of the memory before it. -/
def atom (f : Step σ ι ο) (value : σ → ι → α) : Prog σ ι ο α := .act f fun s i => .ret (value s i)

/-! ## Triples -/

/-- What a thread may find changed by the other one between two of its own steps. -/
structure Rely (σ : Type) where
  may : σ → σ → Prop
  refl : ∀ s, may s s
  trans : ∀ {s t u}, may s t → may t u → may s u

/-- What holds, holds after the other thread's steps. -/
def Stable (rely : Rely σ) (P : σ → Prop) : Prop := ∀ {s t}, P s → rely.may s t → P t

section

variable (rely : Rely σ) (guar : σ → ο → σ → Prop)

/-- Between steps of the other thread, all steps of the program are defined and as `guar` says,
and `post` holds of the result from then on. -/
def Ok (post : α → σ → Prop) : Prog σ ι ο α → σ → Prop
  | .ret a, s => ∀ t, rely.may s t → post a t
  | .act f k, s => ∀ t, rely.may s t → ∀ i, ∃ o u, f t i = some (o, u) ∧ guar t o u ∧
      Ok post (k t i) u

/-- From a memory with `pre` the program does its steps as it should. -/
def Triple (pre : σ → Prop) (p : Prog σ ι ο α) (post : α → σ → Prop) : Prop :=
  ∀ s, pre s → Ok rely guar post p s

end

section

variable {rely : Rely σ} {guar : σ → ο → σ → Prop} {pre pre' : σ → Prop}
variable {p : Prog σ ι ο α} {post post' : α → σ → Prop}

/-- A program goes on as well after steps of the other thread. -/
theorem Ok.mono {s t : σ} (h : Ok rely guar post p s) (hMay : rely.may s t) :
    Ok rely guar post p t := by
  cases p with
  | ret a =>
      intro u hNext
      exact h u (rely.trans hMay hNext)
  | act f k =>
      intro u hNext
      exact h u (rely.trans hMay hNext)

theorem Ok.weaken {s : σ} (h : Ok rely guar post p s) (hPost : ∀ a t, post a t → post' a t) :
    Ok rely guar post' p s := by
  induction p generalizing s with
  | ret a =>
      intro t hMay
      exact hPost a t (h t hMay)
  | act f k ih =>
      intro t hMay i
      obtain ⟨o, u, hStep, hGuar, hRest⟩ := h t hMay i
      exact ⟨o, u, hStep, hGuar, ih t i hRest⟩

theorem Ok.bind {s : σ} {k : α → Prog σ ι ο β} {last : β → σ → Prop}
    (h : Ok rely guar post p s) (hNext : ∀ a, Triple rely guar (post a) (k a) last) :
    Ok rely guar last (p >>= k) s := by
  induction p generalizing s with
  | ret a => exact hNext a s (h s (rely.refl s))
  | act f next ih =>
      intro t hMay i
      obtain ⟨o, u, hStep, hGuar, hRest⟩ := h t hMay i
      exact ⟨o, u, hStep, hGuar, ih t i hRest⟩

/-- A program that does nothing. -/
theorem Triple.ret {a : α} (hStable : Stable rely pre) (h : ∀ s, pre s → post a s) :
    Triple rely guar pre (pure a : Prog σ ι ο α) post := by
  intro s hPre t hMay
  exact h t (hStable hPre hMay)

/-- One program after another. -/
theorem Triple.bind {k : α → Prog σ ι ο β} {last : β → σ → Prop}
    (h : Triple rely guar pre p post) (hNext : ∀ a, Triple rely guar (post a) (k a) last) :
    Triple rely guar pre (p >>= k) last :=
  fun s hPre => (h s hPre).bind hNext

theorem Triple.weaken (h : Triple rely guar pre p post) (hPre : ∀ s, pre' s → pre s)
    (hPost : ∀ a s, post a s → post' a s) : Triple rely guar pre' p post' :=
  fun s hPre' => (h s (hPre s hPre')).weaken hPost

/-- A single step. -/
theorem Triple.atom {f : Step σ ι ο} {value : σ → ι → α} (hStable : Stable rely pre)
    (hPost : ∀ a, Stable rely (post a))
    (hStep : ∀ s i, pre s → ∃ o t, f s i = some (o, t) ∧ guar s o t ∧ post (value s i) t) :
    Triple rely guar pre (atom f value) post := by
  intro s hPre t hMay i
  obtain ⟨o, u, hDone, hGuar, hThen⟩ := hStep t i (hStable hPre hMay)
  refine ⟨o, u, hDone, hGuar, ?_⟩
  intro v hLater
  exact hPost _ hThen hLater

/-- A triple for each value that the memory can have at first. -/
theorem Triple.fix {P : γ → σ → Prop} (h : ∀ x, Triple rely guar (P x) p post) :
    Triple rely guar (fun s => ∃ x, P x s) p post := by
  intro s ⟨x, hP⟩
  exact h x s hP

end

/-! ## Two threads -/

/-- A memory, and the rest of the program of each thread. -/
structure Threads (σ ι ο α β : Type) where
  memory : σ
  first : Prog σ ι ο α
  second : Prog σ ι ο β

/-- Which thread has the turn, with the argument of its next call. -/
inductive Turn (ι γ δ : Type)
  | first (arg : γ) (i : ι)
  | second (arg : δ) (i : ι)

/-- One turn of a thread: a step of its program, or the beginning of its next call. -/
def Prog.turn (p next : Prog σ ι ο α) (s : σ) (i : ι) :
    Option (Option ο × σ × Prog σ ι ο α) :=
  match p with
  | .ret _ => some (none, s, next)
  | .act f k => (f s i).map fun (o, t) => (some o, t, k s i)

/-- A turn of one of two threads, each of which repeats a call. -/
def threadsStep (first : γ → Prog σ ι ο α) (second : δ → Prog σ ι ο β) :
    Step (Threads σ ι ο α β) (Turn ι γ δ) (Option ο)
  | s, .first arg i => (s.first.turn (first arg) s.memory i).map fun (o, t, p) =>
      (o, { s with memory := t, first := p })
  | s, .second arg i => (s.second.turn (second arg) s.memory i).map fun (o, t, p) =>
      (o, { s with memory := t, second := p })

/-- What a turn shows, if it is a step and not the beginning of a call. -/
def Guaranteed (guar : σ → ο → σ → Prop) (s : σ) (o : Option ο) (t : σ) : Prop :=
  match o with
  | none => t = s
  | some o => guar s o t

/-- The turn is as the thread guarantees. -/
def Turn.Shows (guarFirst guarSecond : σ → ο → σ → Prop) (s : Threads σ ι ο α β)
    (turn : Turn ι γ δ) (o : Option ο) (s' : Threads σ ι ο α β) : Prop :=
  match turn with
  | .first _ _ => Guaranteed guarFirst s.memory o s'.memory
  | .second _ _ => Guaranteed guarSecond s.memory o s'.memory

section

variable {rely : Rely σ} {guar : σ → ο → σ → Prop} {idle inv : σ → Prop}
variable {p next : Prog σ ι ο α}

/-- One turn of a thread whose calls are as they should. -/
theorem Ok.turn {s : σ} (h : Ok rely guar (fun _ => idle) p s)
    (hNext : Triple rely guar idle next fun _ => idle) (i : ι) :
    ∃ o t p', p.turn next s i = some (o, t, p') ∧ Guaranteed guar s o t ∧
      Ok rely guar (fun _ => idle) p' t := by
  cases p with
  | ret a => exact ⟨none, s, next, rfl, rfl, hNext s (h s (rely.refl s))⟩
  | act f k =>
      obtain ⟨o, t, hStep, hGuar, hRest⟩ := h s (rely.refl s) i
      refine ⟨some o, t, k s i, ?_, hGuar, hRest⟩
      rw [Prog.turn, hStep]
      rfl

/-- What a thread guarantees, the other one may rely on. -/
theorem Guaranteed.may {s t : σ} {o : Option ο} (h : Guaranteed guar s o t)
    (hWithin : ∀ {s o t}, guar s o t → rely.may s t) : rely.may s t := by
  cases o with
  | none =>
      have hSame : t = s := h
      rw [hSame]
      exact rely.refl s
  | some o => exact hWithin h

theorem Guaranteed.keeps {s t : σ} {o : Option ο} (h : Guaranteed guar s o t) (hInv : inv s)
    (hKeeps : ∀ {s o t}, guar s o t → inv s → inv t) : inv t := by
  cases o with
  | none =>
      have hSame : t = s := h
      rwa [hSame]
  | some o => exact hKeeps h hInv

end

section

variable {relyFirst relySecond : Rely σ} {guarFirst guarSecond : σ → ο → σ → Prop}
variable {idleFirst idleSecond inv : σ → Prop}
variable {first : γ → Prog σ ι ο α} {second : δ → Prog σ ι ο β}

/-- Along every run of two threads, one between the calls of each other, all turns are defined and
as the threads guarantee, and what both keep holds before and after each. -/
theorem threads_along
    (hFirst : ∀ arg, Triple relyFirst guarFirst idleFirst (first arg) fun _ => idleFirst)
    (hSecond : ∀ arg, Triple relySecond guarSecond idleSecond (second arg) fun _ => idleSecond)
    (hStableFirst : Stable relyFirst idleFirst) (hStableSecond : Stable relySecond idleSecond)
    (hOfFirst : ∀ {s o t}, guarFirst s o t → relySecond.may s t)
    (hOfSecond : ∀ {s o t}, guarSecond s o t → relyFirst.may s t)
    (hKeepsFirst : ∀ {s o t}, guarFirst s o t → inv s → inv t)
    (hKeepsSecond : ∀ {s o t}, guarSecond s o t → inv s → inv t)
    {s : σ} (hIdleFirst : idleFirst s) (hIdleSecond : idleSecond s) (hInv : inv s) (a : α) (b : β)
    (turns : List (Turn ι γ δ)) :
    Along (threadsStep first second)
      (Does (threadsStep first second) fun s turn o s' =>
        inv s.memory ∧ inv s'.memory ∧ turn.Shows guarFirst guarSecond s o s')
      ⟨s, .ret a, .ret b⟩ turns := by
  let Going (s : Threads σ ι ο α β) : Prop := inv s.memory ∧
    Ok relyFirst guarFirst (fun _ => idleFirst) s.first s.memory ∧
    Ok relySecond guarSecond (fun _ => idleSecond) s.second s.memory
  have hTurn : ∀ s (turn : Turn ι γ δ), Going s → ∃ o s', threadsStep first second s turn =
      some (o, s') ∧ turn.Shows guarFirst guarSecond s o s' ∧ Going s' := by
    rintro ⟨s, p, q⟩ turn ⟨hInv, hp, hq⟩
    cases turn with
    | first arg i =>
        obtain ⟨o, t, p', hStep, hGuar, hp'⟩ := Ok.turn hp (hFirst arg) i
        refine ⟨o, ⟨t, p', q⟩, ?_, hGuar, hGuar.keeps hInv hKeepsFirst, hp', ?_⟩
        · rw [threadsStep, hStep]
          rfl
        · exact hq.mono (hGuar.may hOfFirst)
    | second arg i =>
        obtain ⟨o, t, q', hStep, hGuar, hq'⟩ := Ok.turn hq (hSecond arg) i
        refine ⟨o, ⟨t, p, q'⟩, ?_, hGuar, hGuar.keeps hInv hKeepsSecond, ?_, hq'⟩
        · rw [threadsStep, hStep]
          rfl
        · exact hp.mono (hGuar.may hOfSecond)
  have hInit : Going ⟨s, .ret a, .ret b⟩ :=
    ⟨hInv, fun t hMay => hStableFirst hIdleFirst hMay, fun t hMay => hStableSecond hIdleSecond hMay⟩
  apply along_of_spec Going _ hInit (along_true _ turns)
  intro s turn hGoing _
  obtain ⟨o, s', hStep, hShows, hGoing'⟩ := hTurn s turn hGoing
  exact ⟨o, s', hStep, ⟨hGoing.1, hGoing'.1, hShows⟩, hGoing'⟩

end

end Gbase.Lib.RelyGuarantee
