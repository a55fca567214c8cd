import PaymentApis.Lib.Program

/-!
# Worker processes over a shared world

Any number of processes run scripts of single actions on one world: a
statement that commits by itself, a message given to a broker, a request to
another host. An action is atomic, and the scheduler chooses its outcome. A
process may be born by an event of the world (a message handed to a consumer),
may crash between two actions, and the world moves on its own.

A process remembers the actions it has taken. What a script can do next is a
fact about that record alone (`Issues`), so an invariant of the whole
system speaks of the world and of the records, never of program positions.
-/

namespace Processes

open TxStore

/-- A program of single actions. -/
abbrev Script (S : Type) (R : S → Type) (ε α : Type) := Client S R ε Empty Empty α

/-- One action taken, with its answer. -/
structure Did (S : Type) (R : S → Type) (ε : Type) where
  act : S
  answer : Except ε (R act)

/-- What processes act on. Process `i`, at work on the job `j`, takes the action
`s` with the outcome `o`; `none` when that cannot happen. -/
structure Device (W S : Type) (R : S → Type) (ε O J E : Type) where
  act : ℕ → J → (s : S) → O → W → Option (Except ε (R s) × W)
  birth : ℕ → J → W → Option W
  crash : ℕ → J → W → W
  event : E → W → Option W

/-- A process; its script is gone once it has crashed. -/
structure Member (S : Type) (R : S → Type) (ε J α : Type) : Type 1 where
  job : J
  log : List (Did S R ε)
  script : Option (Script S R ε α)

structure Pool (W S : Type) (R : S → Type) (ε J α : Type) : Type 1 where
  world : W
  nodes : List (Member S R ε J α)

inductive Label (O J E : Type)
  | start (j : J)
  | run (i : ℕ) (o : O)
  | crash (i : ℕ)
  | event (e : E)
deriving DecidableEq

section

variable {W S : Type} {R : S → Type} {ε O J E α : Type}

/-- The action a process is about to take. -/
def Member.next (n : Member S R ε J α) : Option S :=
  match n.script with
  | some (.query s _) => some s
  | _ => none

def Member.live (n : Member S R ε J α) : Bool :=
  match n.script with
  | some c => !c.finished
  | none => false

def Pool.begin (w : W) : Pool W S R ε J α := ⟨w, []⟩

/-- The next action of process `i`, with the world it leaves. -/
def Member.step (D : Device W S R ε O J E) (i : ℕ) (o : O) (w : W) (n : Member S R ε J α) :
    Option (Member S R ε J α × W) :=
  match n.script with
  | some (.query s k) =>
    (D.act i n.job s o w).map (fun x => (⟨n.job, n.log ++ [⟨s, x.1⟩], some (k x.1)⟩, x.2))
  | _ => none

def Pool.step (D : Device W S R ε O J E) (program : J → Script S R ε α) (s : Pool W S R ε J α) :
    Label O J E → Option (Pool W S R ε J α)
  | .start j =>
    (D.birth s.nodes.length j s.world).map
      (fun w => ⟨w, s.nodes ++ [⟨j, [], some (program j)⟩]⟩)
  | .run i o =>
    match s.nodes[i]? with
    | none => none
    | some n => (n.step D i o s.world).map (fun x => ⟨x.2, s.nodes.set i x.1⟩)
  | .crash i =>
    match s.nodes[i]? with
    | none => none
    | some n =>
      if n.live then
        some ⟨D.crash i n.job s.world, s.nodes.set i { n with script := none }⟩
      else none
  | .event e => (D.event e s.world).map (fun w => { s with world := w })

/-- The states reached from a state by steps that satisfy `ok`. -/
inductive Runs (D : Device W S R ε O J E) (program : J → Script S R ε α)
    (ok : Pool W S R ε J α → Label O J E → Prop) :
    Pool W S R ε J α → Pool W S R ε J α → Prop
  | refl (s) : Runs D program ok s s
  | tail {s t u l} : Runs D program ok s t → t.step D program l = some u → ok t l →
      Runs D program ok s u

theorem Runs.trans {D : Device W S R ε O J E} {program : J → Script S R ε α}
    {ok : Pool W S R ε J α → Label O J E → Prop} {s t u : Pool W S R ε J α}
    (h : Runs D program ok s t) (h' : Runs D program ok t u) : Runs D program ok s u := by
  induction h' with
  | refl => exact h
  | tail _ hstep hok ih => exact .tail ih hstep hok

theorem Runs.mono {D : Device W S R ε O J E} {program : J → Script S R ε α}
    {ok ok' : Pool W S R ε J α → Label O J E → Prop} (hok : ∀ s l, ok s l → ok' s l)
    {s t : Pool W S R ε J α} (h : Runs D program ok s t) : Runs D program ok' s t := by
  induction h with
  | refl => exact .refl _
  | tail _ hstep h ih => exact .tail ih hstep (hok _ _ h)

/-- A schedule all of whose steps pass a test. -/
def Pool.runWhile (D : Device W S R ε O J E) (program : J → Script S R ε α)
    (test : Pool W S R ε J α → Label O J E → Bool) (s : Pool W S R ε J α) :
    List (Label O J E) → Option (Pool W S R ε J α)
  | [] => some s
  | l :: ls =>
    if test s l then (s.step D program l).bind (fun s' => s'.runWhile D program test ls) else none

theorem Runs.of_runWhile {D : Device W S R ε O J E} {program : J → Script S R ε α}
    {test : Pool W S R ε J α → Label O J E → Bool} : ∀ {ls : List (Label O J E)}
    {s t : Pool W S R ε J α}, s.runWhile D program test ls = some t →
    Runs D program (fun s l => test s l = true) s t
  | [], s, t, h => by
      simp only [Pool.runWhile, Option.some.injEq] at h
      exact h ▸ .refl s
  | l :: ls, s, t, h => by
      simp only [Pool.runWhile] at h
      split at h
      · rename_i htest
        obtain ⟨m, hm, hrest⟩ := Option.bind_eq_some_iff.mp h
        exact Runs.trans (.tail (.refl s) hm htest) (Runs.of_runWhile hrest)
      · simp at h

theorem Runs.exists_of_runWhile {D : Device W S R ε O J E} {program : J → Script S R ε α}
    {test : Pool W S R ε J α → Label O J E → Bool} {ls : List (Label O J E)}
    {s : Pool W S R ε J α} {p : Pool W S R ε J α → Bool}
    (h : (s.runWhile D program test ls).any p = true) :
    ∃ t, Runs D program (fun s l => test s l = true) s t ∧ p t = true := by
  cases ht : s.runWhile D program test ls with
  | none => simp [ht] at h
  | some t =>
    rw [ht, Option.any_some] at h
    exact ⟨t, Runs.of_runWhile ht, h⟩

/-! ## What a script can do after a record -/

/-- Every action the script takes satisfies `P` of the record it is taken
after, if each answer satisfies `V` of the record before it; where the script
ends, the record satisfies `Q` or, on an error, `X`. -/
def Issues (V : List (Did S R ε) → (s : S) → Except ε (R s) → Prop)
    (P : List (Did S R ε) → S → Prop) (Q : List (Did S R ε) → α → Prop)
    (X : List (Did S R ε) → ε → Prop) : List (Did S R ε) → Script S R ε α → Prop
  | log, .ret a => Q log a
  | log, .throw e => X log e
  | log, .query s k => P log s ∧ ∀ r, V log s r → Issues V P Q X (log ++ [⟨s, r⟩]) (k r)

section Issues

variable {β : Type} {V : List (Did S R ε) → (s : S) → Except ε (R s) → Prop}
  {P : List (Did S R ε) → S → Prop} {Q : List (Did S R ε) → α → Prop}
  {Q' : List (Did S R ε) → β → Prop} {X X' : List (Did S R ε) → ε → Prop}

theorem Issues.exec {s : S} {log : List (Did S R ε)} {Q : List (Did S R ε) → R s → Prop}
    (hp : P log s) (hq : ∀ r, V log s (.ok r) → Q (log ++ [⟨s, .ok r⟩]) r)
    (hx : ∀ e, V log s (.error e) → X (log ++ [⟨s, .error e⟩]) e) :
    Issues V P Q X log (Client.exec s) := by
  refine ⟨hp, ?_⟩
  intro r hr
  cases r with
  | ok r => exact hq r hr
  | error e => exact hx e hr

theorem Issues.bind {f : α → Script S R ε β}
    (hf : ∀ log a, Q log a → Issues V P Q' X log (f a)) :
    ∀ {c : Script S R ε α} {log : List (Did S R ε)}, Issues V P Q X log c →
      Issues V P Q' X log (c >>= f)
  | .ret a, log, h => hf log a h
  | .throw _, _, h => h
  | .query _ _, _, h => ⟨h.1, fun r hr => Issues.bind hf (h.2 r hr)⟩

theorem Issues.tryCatch {g : ε → Script S R ε α}
    (hg : ∀ log e, X log e → Issues V P Q X' log (g e)) :
    ∀ {c : Script S R ε α} {log : List (Did S R ε)}, Issues V P Q X log c →
      Issues V P Q X' log (c.tryCatch g)
  | .ret _, _, h => h
  | .throw e, log, h => hg log e h
  | .query _ _, _, h => ⟨h.1, fun r hr => Issues.tryCatch hg (h.2 r hr)⟩

theorem Issues.imp {Q' : List (Did S R ε) → α → Prop} (hq : ∀ log a, Q log a → Q' log a)
    (hx : ∀ log e, X log e → X' log e) : ∀ {c : Script S R ε α} {log : List (Did S R ε)},
    Issues V P Q X log c → Issues V P Q' X' log c
  | .ret _, _, h => hq _ _ h
  | .throw _, _, h => hx _ _ h
  | .query _ _, _, h => ⟨h.1, fun r hr => Issues.imp hq hx (h.2 r hr)⟩

end Issues

section Obeys

variable {V : List (Did S R ε) → (s : S) → Except ε (R s) → Prop}
  {P : J → List (Did S R ε) → S → Prop} {Q : J → List (Did S R ε) → α → Prop}
  {X : J → List (Did S R ε) → ε → Prop}

/-- Every process that has not crashed is where its record lets it be. -/
def Pool.Obeys (V : List (Did S R ε) → (s : S) → Except ε (R s) → Prop)
    (P : J → List (Did S R ε) → S → Prop) (Q : J → List (Did S R ε) → α → Prop)
    (X : J → List (Did S R ε) → ε → Prop) (s : Pool W S R ε J α) : Prop :=
  ∀ n ∈ s.nodes, ∀ c ∈ n.script, Issues V (P n.job) (Q n.job) (X n.job) n.log c

theorem Pool.Obeys.set {s : Pool W S R ε J α} (hs : s.Obeys V P Q X) {i : ℕ}
    {m : Member S R ε J α} (w : W)
    (hm : ∀ c ∈ m.script, Issues V (P m.job) (Q m.job) (X m.job) m.log c) :
    Pool.Obeys V P Q X ⟨w, s.nodes.set i m⟩ := by
  intro n hn c hc
  rcases List.mem_or_eq_of_mem_set hn with hn | rfl
  · exact hs n hn c hc
  · exact hm c hc

variable {D : Device W S R ε O J E} {program : J → Script S R ε α}

theorem Pool.Obeys.step {s t : Pool W S R ε J α} {l : Label O J E}
    (hgives : ∀ {i n st o r w}, s.nodes[i]? = some n → D.act i n.job st o s.world = some (r, w) →
      V n.log st r)
    (hprogram : ∀ j, Issues V (P j) (Q j) (X j) [] (program j)) (hs : s.Obeys V P Q X)
    (h : s.step D program l = some t) : t.Obeys V P Q X := by
  cases l with
  | start j =>
    obtain ⟨w, hw, rfl⟩ := Option.map_eq_some_iff.mp h
    intro n hn c hc
    rcases List.mem_append.mp hn with hn | hn
    · exact hs n hn c hc
    · obtain rfl := List.mem_singleton.mp hn
      obtain rfl := Option.some.inj hc
      exact hprogram j
  | run i o =>
    simp only [Pool.step] at h
    split at h
    · simp at h
    · rename_i m hm
      obtain ⟨x, hx, rfl⟩ := Option.map_eq_some_iff.mp h
      unfold Member.step at hx
      split at hx
      · rename_i st k hscript
        obtain ⟨⟨r, w⟩, hact, rfl⟩ := Option.map_eq_some_iff.mp hx
        refine hs.set w ?_
        intro c hc
        obtain rfl := Option.some.inj hc
        exact (hs m (List.mem_of_getElem? hm) _ hscript).2 r (hgives hm hact)
      · simp at hx
  | crash i =>
    simp only [Pool.step] at h
    split at h
    · simp at h
    · split at h
      · cases h
        exact hs.set _ (fun c hc => nomatch hc)
      · simp at h
  | event e =>
    obtain ⟨w, hw, rfl⟩ := Option.map_eq_some_iff.mp h
    exact hs

theorem Pool.obeys_begin (w : W) : (Pool.begin w : Pool W S R ε J α).Obeys V P Q X := by
  intro n hn
  simp [Pool.begin] at hn

end Obeys

/-- How the world changes while process `i` does nothing. -/
inductive Device.Shifts (D : Device W S R ε O J E) (i : ℕ) (w : W) : W → Prop
  | birth {k j w'} (other : k ≠ i) (born : D.birth k j w = some w') : D.Shifts i w w'
  | act {k j s o r w'} (other : k ≠ i) (acts : D.act k j s o w = some (r, w')) : D.Shifts i w w'
  | crash {k j} : D.Shifts i w (D.crash k j w)
  | event {e w'} (happens : D.event e w = some w') : D.Shifts i w w'

/-- What is known of a device and its programs: what the record of a process
says of the world, the answers it gives after a record, and what every action of
a job is preceded by. -/
structure Discipline (D : Device W S R ε O J E) (program : J → Script S R ε α) where
  Knows : ℕ → List (Did S R ε) → W → Prop := fun _ _ _ => True
  Gives : List (Did S R ε) → (s : S) → Except ε (R s) → Prop
  May : J → List (Did S R ε) → S → Prop
  born : ∀ {i j w w'}, D.birth i j w = some w' → Knows i [] w' := by intros; trivial
  gives : ∀ {i j log s o w r w'}, Knows i log w → D.act i j s o w = some (r, w') → Gives log s r
  learns : ∀ {i j log s o w r w'}, Knows i log w → D.act i j s o w = some (r, w') →
    Knows i (log ++ [⟨s, r⟩]) w' := by intros; trivial
  keeps : ∀ {i log w w'}, Knows i log w → D.Shifts i w w' → Knows i log w' := by intros; trivial
  issues : ∀ j, Issues Gives (May j) (fun _ _ => True) (fun _ _ => True) [] (program j)

section Move

variable {D : Device W S R ε O J E} {program : J → Script S R ε α}

/-- Every process stands where its record lets it stand, and what its record
says of the world is so. -/
structure Discipline.Follows (K : Discipline D program) (s : Pool W S R ε J α) : Prop where
  obeys : s.Obeys K.Gives K.May (fun _ _ _ => True) (fun _ _ _ => True)
  knows : ∀ i n, s.nodes[i]? = some n → K.Knows i n.log s.world

/-- A step, with what is known of the process that takes it. -/
inductive Move (K : Discipline D program) (s : Pool W S R ε J α) :
    Label O J E → Pool W S R ε J α → Prop
  | start {j w c} (born : D.birth s.nodes.length j s.world = some w) :
      Move K s (.start j) ⟨w, s.nodes ++ [⟨j, [], some c⟩]⟩
  | run {i o n st k r w} (here : s.nodes[i]? = some n) (script : n.script = some (.query st k))
      (knows : K.Knows i n.log s.world) (may : K.May n.job n.log st)
      (acts : D.act i n.job st o s.world = some (r, w)) :
      Move K s (.run i o) ⟨w, s.nodes.set i ⟨n.job, n.log ++ [⟨st, r⟩], some (k r)⟩⟩
  | crash {i n} (here : s.nodes[i]? = some n) (live : n.live = true) :
      Move K s (.crash i) ⟨D.crash i n.job s.world, s.nodes.set i { n with script := none }⟩
  | event {e w} (happens : D.event e s.world = some w) : Move K s (.event e) { s with world := w }

variable {K : Discipline D program} {ok : Pool W S R ε J α → Label O J E → Prop}
  {s t : Pool W S R ε J α} {l : Label O J E}

theorem Discipline.Follows.move (hs : K.Follows s) (h : s.step D program l = some t) :
    Move K s l t := by
  cases l with
  | start j =>
    obtain ⟨w, hw, rfl⟩ := Option.map_eq_some_iff.mp h
    exact .start hw
  | run i o =>
    simp only [Pool.step] at h
    split at h
    · simp at h
    · rename_i m hm
      obtain ⟨x, hx, rfl⟩ := Option.map_eq_some_iff.mp h
      unfold Member.step at hx
      split at hx
      · rename_i st k hscript
        obtain ⟨⟨r, w⟩, hact, rfl⟩ := Option.map_eq_some_iff.mp hx
        have hmay := (hs.obeys m (List.mem_of_getElem? hm) _ hscript).1
        exact .run hm hscript (hs.knows i m hm) hmay hact
      · simp at hx
  | crash i =>
    simp only [Pool.step] at h
    split at h
    · simp at h
    · rename_i m hm
      split at h
      · rename_i hlive
        cases h
        exact .crash hm hlive
      · simp at h
  | event e =>
    obtain ⟨w, hw, rfl⟩ := Option.map_eq_some_iff.mp h
    exact .event hw

/-- A process that was there before the step knows of the world what it knew,
unless it has acted. -/
theorem Move.knows (h : Move K s l t) (hs : ∀ i n, s.nodes[i]? = some n → K.Knows i n.log s.world)
    {k : ℕ} {m : Member S R ε J α} (hm : t.nodes[k]? = some m) : K.Knows k m.log t.world := by
  cases h with
  | start born =>
    by_cases hk : k < s.nodes.length
    · rw [List.getElem?_append_left hk] at hm
      exact K.keeps (hs k m hm) (.birth hk.ne' born)
    · rw [List.getElem?_append_right (not_lt.mp hk)] at hm
      obtain ⟨hlast, rfl⟩ := List.getElem?_eq_some_iff.mp hm
      rw [List.length_singleton] at hlast
      obtain rfl : k = s.nodes.length := by omega
      simpa using K.born born
  | run here script knows may acts =>
    rename_i i o n st c r w
    by_cases hik : i = k
    · subst hik
      rw [List.getElem?_set_self (List.getElem?_eq_some_iff.mp here).1] at hm
      obtain rfl := Option.some.inj hm
      exact K.learns knows acts
    · rw [List.getElem?_set_ne hik] at hm
      exact K.keeps (hs k m hm) (.act hik acts)
  | crash here live =>
    rename_i i n
    by_cases hik : i = k
    · subst hik
      rw [List.getElem?_set_self (List.getElem?_eq_some_iff.mp here).1] at hm
      obtain rfl := Option.some.inj hm
      exact K.keeps (hs i n here) .crash
    · rw [List.getElem?_set_ne hik] at hm
      exact K.keeps (hs k m hm) .crash
  | event happens => exact K.keeps (hs k m hm) (.event happens)

/-- One step: what is known of it, and that the discipline goes on. -/
theorem Discipline.Follows.step (hs : K.Follows s) (h : s.step D program l = some t) :
    Move K s l t ∧ K.Follows t := by
  refine ⟨hs.move h, Pool.Obeys.step ?_ K.issues hs.obeys h, ?_⟩
  · intro i n st o r w hn hact
    exact K.gives (hs.knows i n hn) hact
  · intro k m hm
    exact (hs.move h).knows hs.knows hm

theorem Discipline.Follows.runs (hs : K.Follows s) (h : Runs D program ok s t) : K.Follows t := by
  induction h with
  | refl => exact hs
  | tail _ hstep _ ih => exact (ih.step hstep).2

/-- What else is known of the records, and of where the programs end. -/
theorem Discipline.Follows.obeys_runs {P : J → List (Did S R ε) → S → Prop}
    {Q : J → List (Did S R ε) → α → Prop} {X : J → List (Did S R ε) → ε → Prop}
    (hs : K.Follows s) (hprogram : ∀ j, Issues K.Gives (P j) (Q j) (X j) [] (program j))
    (h : Runs D program ok s t) (hobeys : s.Obeys K.Gives P Q X) : t.Obeys K.Gives P Q X := by
  induction h with
  | refl => exact hobeys
  | tail hrun hstep _ ih =>
    refine ih.step ?_ hprogram hstep
    intro i n st o r w hn hact
    exact K.gives ((hs.runs hrun).knows i n hn) hact

/-- What every move preserves holds at the end of every run. -/
theorem Runs.invariant {I : Pool W S R ε J α → Prop}
    (hmove : ∀ {s t l}, I s → Move K s l t → ok s l → I t) (hs : K.Follows s)
    (h : Runs D program ok s t) (hi : I s) : I t := by
  induction h with
  | refl => exact hi
  | tail hrun hstep hok ih => exact hmove ih ((hs.runs hrun).step hstep).1 hok

/-- What is known of a process after a step that leaves the world `w`. -/
inductive Move.Grown (K : Discipline D program) (s : Pool W S R ε J α) (l : Label O J E) (w : W)
    (m : Member S R ε J α) : Prop
  | old {n} (mem : n ∈ s.nodes) (job : m.job = n.job) (log : m.log = n.log)
  | born (label : l = .start m.job) (born : D.birth s.nodes.length m.job s.world = some w)
      (log : m.log = [])
  | acted {i o n st r} (label : l = .run i o) (here : s.nodes[i]? = some n)
      (knows : K.Knows i n.log s.world) (may : K.May n.job n.log st)
      (acts : D.act i n.job st o s.world = some (r, w)) (job : m.job = n.job)
      (log : m.log = n.log ++ [⟨st, r⟩])

theorem Move.grown (h : Move K s l t) {m : Member S R ε J α} (hm : m ∈ t.nodes) :
    Move.Grown K s l t.world m := by
  cases h with
  | start born =>
    rcases List.mem_append.mp hm with hold | hnew
    · exact .old hold rfl rfl
    · obtain rfl := List.mem_singleton.mp hnew
      exact .born rfl born rfl
  | run here script knows may acts =>
    rcases List.mem_or_eq_of_mem_set hm with hold | rfl
    · exact .old hold rfl rfl
    · exact .acted rfl here knows may acts rfl rfl
  | crash here live =>
    rcases List.mem_or_eq_of_mem_set hm with hold | rfl
    · exact .old hold rfl rfl
    · exact .old (List.mem_of_getElem? here) rfl rfl
  | event happens => exact .old hm rfl rfl

/-- The same of the process at the place `k`. -/
inductive Move.GrownAt (K : Discipline D program) (s : Pool W S R ε J α) (l : Label O J E) (w : W)
    (k : ℕ) (m : Member S R ε J α) : Prop
  | old {n} (here : s.nodes[k]? = some n) (job : m.job = n.job) (log : m.log = n.log)
  | born (last : k = s.nodes.length) (label : l = .start m.job) (log : m.log = [])
  | acted {o n st r} (label : l = .run k o) (here : s.nodes[k]? = some n)
      (knows : K.Knows k n.log s.world) (may : K.May n.job n.log st)
      (acts : D.act k n.job st o s.world = some (r, w)) (job : m.job = n.job)
      (log : m.log = n.log ++ [⟨st, r⟩])

theorem Move.grownAt (h : Move K s l t) {k : ℕ} {m : Member S R ε J α}
    (hm : t.nodes[k]? = some m) : Move.GrownAt K s l t.world k m := by
  have hset : ∀ {i : ℕ} {n n' : Member S R ε J α}, s.nodes[i]? = some n →
      (s.nodes.set i n')[k]? = some m → s.nodes[k]? = some m ∨ i = k ∧ n' = m := by
    intro i n n' here hk
    by_cases hik : i = k
    · subst hik
      rw [List.getElem?_set_self (List.getElem?_eq_some_iff.mp here).1] at hk
      exact .inr ⟨rfl, Option.some.inj hk⟩
    · rw [List.getElem?_set_ne hik] at hk
      exact .inl hk
  cases h with
  | start born =>
    by_cases hk : k < s.nodes.length
    · rw [List.getElem?_append_left hk] at hm
      exact .old hm rfl rfl
    · rw [List.getElem?_append_right (not_lt.mp hk)] at hm
      obtain ⟨hlast, rfl⟩ := List.getElem?_eq_some_iff.mp hm
      rw [List.length_singleton] at hlast
      exact .born (by omega) (by simp) (by simp)
  | run here script knows may acts =>
    rcases hset here hm with hold | ⟨rfl, rfl⟩
    · exact .old hold rfl rfl
    · exact .acted rfl here knows may acts rfl rfl
  | crash here live =>
    rcases hset here hm with hold | ⟨rfl, rfl⟩
    · exact .old hold rfl rfl
    · exact .old here rfl rfl
  | event happens => exact .old hm rfl rfl

/-- A process stays in its place, and so does its record. -/
theorem Move.persistsAt (h : Move K s l t) {k : ℕ} {n : Member S R ε J α}
    (hn : s.nodes[k]? = some n) :
    ∃ m, t.nodes[k]? = some m ∧ m.job = n.job ∧ n.log <+: m.log := by
  have hset : ∀ {i : ℕ} {n' m : Member S R ε J α}, s.nodes[i]? = some n' → m.job = n'.job →
      n'.log <+: m.log → ∃ m', (s.nodes.set i m)[k]? = some m' ∧ m'.job = n.job ∧
        n.log <+: m'.log := by
    intro i n' m here hjob hlog
    by_cases hik : i = k
    · subst hik
      obtain rfl := Option.some.inj (hn.symm.trans here)
      exact ⟨m, List.getElem?_set_self (List.getElem?_eq_some_iff.mp hn).1, hjob, hlog⟩
    · exact ⟨n, by rw [List.getElem?_set_ne hik, hn], rfl, List.prefix_rfl⟩
  cases h with
  | start born =>
    refine ⟨n, ?_, rfl, List.prefix_rfl⟩
    rw [List.getElem?_append_left (List.getElem?_eq_some_iff.mp hn).1, hn]
  | run here script knows may acts => exact hset here rfl (List.prefix_append _ _)
  | crash here live => exact hset here rfl List.prefix_rfl
  | event happens => exact ⟨n, hn, rfl, List.prefix_rfl⟩

theorem Move.persists (h : Move K s l t) {n : Member S R ε J α} (hn : n ∈ s.nodes) :
    ∃ m ∈ t.nodes, m.job = n.job ∧ n.log <+: m.log := by
  obtain ⟨k, hk⟩ := List.mem_iff_getElem?.mp hn
  obtain ⟨m, hm, hkept⟩ := h.persistsAt hk
  exact ⟨m, List.mem_of_getElem? hm, hkept⟩

/-- What holds of every entry of every record: the world that moves on keeps it,
and an action has it. -/
theorem Move.entries {F : W → Did S R ε → Prop} (h : Move K s l t)
    (hkeeps : ∀ d, F s.world d → F t.world d)
    (hacts : ∀ {i j st o r}, D.act i j st o s.world = some (r, t.world) → F t.world ⟨st, r⟩)
    (hs : ∀ n ∈ s.nodes, ∀ d ∈ n.log, F s.world d) : ∀ n ∈ t.nodes, ∀ d ∈ n.log, F t.world d := by
  intro m hm d hd
  cases h.grown hm with
  | old mem job log =>
    rw [log] at hd
    exact hkeeps d (hs _ mem d hd)
  | born label born log =>
    rw [log] at hd
    cases hd
  | acted label here knows may acts job log =>
    rw [log] at hd
    rcases List.mem_append.mp hd with hold | hnew
    · exact hkeeps d (hs _ (List.mem_of_getElem? here) d hold)
    · obtain rfl := List.mem_singleton.mp hnew
      exact hacts acts

/-- Every entry of a record was allowed by what stands before it. -/
def Discipline.Kept (K : Discipline D program) (s : Pool W S R ε J α) : Prop :=
  ∀ n ∈ s.nodes, ∀ log d rest, n.log = log ++ d :: rest → K.May n.job log d.act

theorem Discipline.Kept.move (hs : K.Kept s) (h : Move K s l t) : K.Kept t := by
  intro m hm log d rest hsplit
  cases h.grown hm with
  | old mem job same => exact job ▸ hs _ mem log d rest (same ▸ hsplit)
  | born label born empty =>
    rw [empty] at hsplit
    exact absurd (congrArg List.length hsplit) (by simp)
  | acted label here knows may acts job grown =>
    rw [grown] at hsplit
    rcases List.eq_nil_or_concat rest with rfl | ⟨init, last, rfl⟩
    · obtain ⟨rfl, hlast⟩ := List.append_inj' hsplit rfl
      obtain rfl := (List.cons.inj hlast).1
      exact job ▸ may
    · rw [List.concat_eq_append, ← List.cons_append, ← List.append_assoc] at hsplit
      obtain ⟨hold, -⟩ := List.append_inj' hsplit rfl
      exact job ▸ hs _ (List.mem_of_getElem? here) log d init hold

theorem Discipline.kept_begin (K : Discipline D program) (w : W) :
    K.Kept (Pool.begin w : Pool W S R ε J α) := by
  intro n hn
  cases hn

theorem Discipline.follows_begin (K : Discipline D program) (w : W) :
    K.Follows (Pool.begin w : Pool W S R ε J α) :=
  ⟨Pool.obeys_begin w, fun i n hn => by simp [Pool.begin] at hn⟩

end Move

/-! ## Notes taken along a schedule -/

section Trace

variable {D : Device W S R ε O J E} {program : J → Script S R ε α} {G : Type}

/-- What an observer of a schedule writes down, step by step. -/
def Pool.trace (D : Device W S R ε O J E) (program : J → Script S R ε α)
    (note : Pool W S R ε J α → Label O J E → Pool W S R ε J α → G → G) :
    Pool W S R ε J α → List (Label O J E) → G → G
  | _, [], g => g
  | s, l :: ls, g =>
    match s.step D program l with
    | none => g
    | some t => t.trace D program note ls (note s l t g)

/-- What every move preserves, with the notes taken of it. -/
theorem Pool.run_traced {K : Discipline D program}
    {test : Pool W S R ε J α → Label O J E → Bool}
    {note : Pool W S R ε J α → Label O J E → Pool W S R ε J α → G → G}
    {I : G → Pool W S R ε J α → Prop}
    (hmove : ∀ {g s t l}, I g s → Move K s l t → test s l = true → I (note s l t g) t) :
    ∀ {ls : List (Label O J E)} {s t : Pool W S R ε J α} {g : G}, K.Follows s →
      s.runWhile D program test ls = some t → I g s → I (s.trace D program note ls g) t
  | [], s, t, g, _, h, hi => by
      simp only [Pool.runWhile, Option.some.injEq] at h
      subst h
      exact hi
  | l :: ls, s, t, g, hs, h, hi => by
      simp only [Pool.runWhile] at h
      split at h
      · rename_i htest
        obtain ⟨u, hu, hrest⟩ := Option.bind_eq_some_iff.mp h
        obtain ⟨hstep, hfollows⟩ := hs.step hu
        rw [Pool.trace, hu]
        exact Pool.run_traced hmove hfollows hrest (hmove hi hstep htest)
      · simp at h

def Pool.run (D : Device W S R ε O J E) (program : J → Script S R ε α) (s : Pool W S R ε J α)
    (ls : List (Label O J E)) : Option (Pool W S R ε J α) :=
  s.runWhile D program (fun _ _ => true) ls

theorem Pool.run_of_runWhile {test : Pool W S R ε J α → Label O J E → Bool} :
    ∀ {ls : List (Label O J E)} {s t : Pool W S R ε J α},
      s.runWhile D program test ls = some t → s.run D program ls = some t
  | [], _, _, h => h
  | l :: ls, s, t, h => by
      simp only [Pool.runWhile] at h
      split at h
      · obtain ⟨u, hu, hrest⟩ := Option.bind_eq_some_iff.mp h
        simp only [Pool.run, Pool.runWhile, if_true, hu, Option.bind_some]
        exact Pool.run_of_runWhile hrest
      · cases h

theorem Pool.runWhile_append {test : Pool W S R ε J α → Label O J E → Bool}
    {ls' : List (Label O J E)} : ∀ {ls : List (Label O J E)} {s t : Pool W S R ε J α},
      s.runWhile D program test ls = some t →
        s.runWhile D program test (ls ++ ls') = t.runWhile D program test ls'
  | [], _, _, h => by
      obtain rfl := Option.some.inj h
      rfl
  | l :: ls, s, t, h => by
      simp only [Pool.runWhile] at h
      split at h
      · rename_i htest
        obtain ⟨u, hu, hrest⟩ := Option.bind_eq_some_iff.mp h
        simp only [List.cons_append, Pool.runWhile, if_pos htest, hu, Option.bind_some]
        exact Pool.runWhile_append hrest
      · cases h

theorem Pool.trace_append {note : Pool W S R ε J α → Label O J E → Pool W S R ε J α → G → G}
    {ls' : List (Label O J E)} : ∀ {ls : List (Label O J E)} {s t : Pool W S R ε J α} {g : G},
      s.run D program ls = some t → s.trace D program note (ls ++ ls') g =
        t.trace D program note ls' (s.trace D program note ls g)
  | [], _, _, _, h => by
      obtain rfl := Option.some.inj h
      rfl
  | l :: ls, s, t, g, h => by
      simp only [Pool.run, Pool.runWhile, if_true] at h
      obtain ⟨u, hu, hrest⟩ := Option.bind_eq_some_iff.mp h
      simp only [List.cons_append, Pool.trace, hu]
      exact Pool.trace_append hrest

/-- The steps of a schedule that are of a kind. -/
def Pool.occurrences (D : Device W S R ε O J E) (program : J → Script S R ε α)
    (kind : Pool W S R ε J α → Label O J E → Pool W S R ε J α → Bool)
    (s : Pool W S R ε J α) (ls : List (Label O J E)) : ℕ :=
  s.trace D program (fun s l t count => count + (kind s l t).toNat) ls 0

/-- What every move preserves, with the count of the steps of a kind. -/
theorem Pool.run_counted {K : Discipline D program}
    {kind : Pool W S R ε J α → Label O J E → Pool W S R ε J α → Bool}
    {I : ℕ → Pool W S R ε J α → Prop}
    (hmove : ∀ {c s t l}, I c s → Move K s l t → I (c + (kind s l t).toNat) t)
    {ls : List (Label O J E)} {s t : Pool W S R ε J α} (hs : K.Follows s)
    (h : s.run D program ls = some t) (hi : I 0 s) : I (s.occurrences D program kind ls) t := by
  refine Pool.run_traced (K := K) ?_ hs h hi
  intro c s t l hc hstep _
  exact hmove hc hstep

/-- Two observers of one schedule are one that takes both notes. -/
theorem Pool.trace_pair {H : Type}
    (note : Pool W S R ε J α → Label O J E → Pool W S R ε J α → G → G)
    (note' : Pool W S R ε J α → Label O J E → Pool W S R ε J α → H → H) :
    ∀ {ls : List (Label O J E)} {s : Pool W S R ε J α} {g : G} {h : H},
      s.trace D program (fun s l t x => (note s l t x.1, note' s l t x.2)) ls (g, h) =
        (s.trace D program note ls g, s.trace D program note' ls h)
  | [], _, _, _ => rfl
  | l :: ls, s, g, h => by
      simp only [Pool.trace]
      cases s.step D program l with
      | none => rfl
      | some t => exact Pool.trace_pair note note'

/-- What every move preserves, with the counts of the steps of two kinds. -/
theorem Pool.run_counted_pair {K : Discipline D program}
    {kind kind' : Pool W S R ε J α → Label O J E → Pool W S R ε J α → Bool}
    {I : ℕ → ℕ → Pool W S R ε J α → Prop}
    (hmove : ∀ {c c' s t l}, I c c' s → Move K s l t →
      I (c + (kind s l t).toNat) (c' + (kind' s l t).toNat) t)
    {ls : List (Label O J E)} {s t : Pool W S R ε J α} (hs : K.Follows s)
    (h : s.run D program ls = some t) (hi : I 0 0 s) :
    I (s.occurrences D program kind ls) (s.occurrences D program kind' ls) t := by
  have hpair : (fun x : ℕ × ℕ => I x.1 x.2) (s.trace D program
      (fun s l t x => (x.1 + (kind s l t).toNat, x.2 + (kind' s l t).toNat)) ls (0, 0)) t :=
    Pool.run_traced (K := K) (I := fun x : ℕ × ℕ => I x.1 x.2)
      (fun hx hstep _ => hmove hx hstep) hs h hi
  rw [Pool.trace_pair (fun s l t c => c + (kind s l t).toNat)
    (fun s l t c => c + (kind' s l t).toNat)] at hpair
  exact hpair

theorem Pool.trace_count {kind : Pool W S R ε J α → Label O J E → Pool W S R ε J α → Bool} :
    ∀ {ls : List (Label O J E)} {s : Pool W S R ε J α} {c : ℕ},
      s.trace D program (fun s l t count => count + (kind s l t).toNat) ls c =
        c + s.occurrences D program kind ls
  | [], _, _ => rfl
  | l :: ls, s, c => by
      simp only [Pool.occurrences, Pool.trace]
      cases s.step D program l with
      | none => rfl
      | some t =>
        simp only [Pool.trace_count]
        omega

/-- Steps of one kind are of one of two others. -/
theorem Pool.occurrences_le_add
    {kind kind₁ kind₂ : Pool W S R ε J α → Label O J E → Pool W S R ε J α → Bool}
    (hkind : ∀ s l t, kind s l t = true → kind₁ s l t = true ∨ kind₂ s l t = true) :
    ∀ {ls : List (Label O J E)} {s : Pool W S R ε J α},
      s.occurrences D program kind ls ≤
        s.occurrences D program kind₁ ls + s.occurrences D program kind₂ ls
  | [], _ => Nat.zero_le _
  | l :: ls, s => by
      simp only [Pool.occurrences, Pool.trace]
      cases s.step D program l with
      | none => exact Nat.zero_le _
      | some t =>
        have ih : t.occurrences D program kind ls ≤
            t.occurrences D program kind₁ ls + t.occurrences D program kind₂ ls :=
          Pool.occurrences_le_add hkind
        have hone : (kind s l t).toNat ≤ (kind₁ s l t).toNat + (kind₂ s l t).toNat := by
          cases hk : kind s l t with
          | false => exact Nat.zero_le _
          | true =>
            rcases hkind s l t hk with h | h <;> simp [h]
        simp only [Pool.trace_count]
        omega

end Trace

/-! ## Sums over the processes -/

/-- The sum of a quantity over all processes. -/
def Pool.total (f : Member S R ε J α → ℕ) (s : Pool W S R ε J α) : ℕ := (s.nodes.map f).sum

theorem Pool.total_append (f : Member S R ε J α → ℕ) (s : Pool W S R ε J α) (w : W)
    (n : Member S R ε J α) : Pool.total f ⟨w, s.nodes ++ [n]⟩ = s.total f + f n := by
  simp [Pool.total]

theorem Pool.total_set {f : Member S R ε J α → ℕ} {s : Pool W S R ε J α} {i : ℕ}
    {n : Member S R ε J α} (h : s.nodes[i]? = some n) (w : W) (m : Member S R ε J α) :
    Pool.total f ⟨w, s.nodes.set i m⟩ + f n = s.total f + f m := by
  obtain ⟨hi, rfl⟩ := List.getElem?_eq_some_iff.mp h
  have hold : s.nodes = s.nodes.take i ++ s.nodes[i] :: s.nodes.drop (i + 1) := by simp
  have hnew : s.nodes.set i m = s.nodes.take i ++ m :: s.nodes.drop (i + 1) := by
    rw [List.set_eq_take_append_cons_drop, if_pos hi]
  have hsum : s.total f =
      ((s.nodes.take i).map f).sum + (f s.nodes[i] + ((s.nodes.drop (i + 1)).map f).sum) := by
    unfold Pool.total
    conv_lhs => rw [hold, List.map_append, List.sum_append, List.map_cons, List.sum_cons]
  simp only [Pool.total] at hsum ⊢
  rw [hnew, hsum, List.map_append, List.sum_append, List.map_cons, List.sum_cons]
  omega

/-- The same, where each process bears a label. -/
def Pool.totalWith {T : Type} (f : T → Member S R ε J α → ℕ) (labels : List T)
    (s : Pool W S R ε J α) : ℕ :=
  ((labels.zip s.nodes).map (fun x => f x.1 x.2)).sum

theorem add_le_sum_map {A : Type*} (f : A → ℕ) : ∀ {l : List A} {i j : ℕ} {a b : A},
    l[i]? = some a → l[j]? = some b → i ≠ j → f a + f b ≤ (l.map f).sum := by
  intro l
  induction l with
  | nil =>
    intro i j a b hi
    simp at hi
  | cons c l ih =>
    intro i j a b hi hj hne
    rw [List.map_cons, List.sum_cons]
    cases i with
    | zero =>
      cases j with
      | zero => exact absurd rfl hne
      | succ j =>
        obtain rfl : c = a := by simpa using hi
        have hmem : f b ∈ l.map f := List.mem_map_of_mem (List.mem_of_getElem? hj)
        exact Nat.add_le_add_left (List.le_sum_of_mem hmem) _
    | succ i =>
      cases j with
      | zero =>
        obtain rfl : c = b := by simpa using hj
        have hmem : f a ∈ l.map f := List.mem_map_of_mem (List.mem_of_getElem? hi)
        have hle := List.le_sum_of_mem hmem
        omega
      | succ j =>
        have hle := ih hi hj (fun h => hne (congrArg _ h))
        omega

section Labels

variable {T : Type} {f : T → Member S R ε J α → ℕ} {labels : List T} {s : Pool W S R ε J α}
  {n m : Member S R ε J α} {x y : T} {i j : ℕ}

theorem Pool.totalWith_append (h : labels.length = s.nodes.length) (w : W) (x : T)
    (n : Member S R ε J α) : Pool.totalWith f (labels ++ [x]) ⟨w, s.nodes ++ [n]⟩ =
      s.totalWith f labels + f x n := by
  simp [Pool.totalWith, List.zip_append h]

theorem Pool.totalWith_set (hx : labels[i]? = some x) (hn : s.nodes[i]? = some n) (w : W)
    (m : Member S R ε J α) : Pool.totalWith f labels ⟨w, s.nodes.set i m⟩ + f x n =
      s.totalWith f labels + f x m := by
  have hsum : ∀ (as : List T) (bs : List (Member S R ε J α)) (i : ℕ), as[i]? = some x →
      bs[i]? = some n → ((as.zip (bs.set i m)).map (fun x => f x.1 x.2)).sum + f x n =
        ((as.zip bs).map (fun x => f x.1 x.2)).sum + f x m := by
    intro as
    induction as with
    | nil =>
      intro bs i hx
      simp at hx
    | cons a as ih =>
      intro bs i hx hn
      cases bs with
      | nil => simp at hn
      | cons b bs =>
        cases i with
        | zero =>
          obtain rfl : a = x := by simpa using hx
          obtain rfl : b = n := by simpa using hn
          simp only [List.set_cons_zero, List.zip_cons_cons, List.map_cons, List.sum_cons]
          omega
        | succ i =>
          have hrest := ih bs i hx hn
          simp only [List.set_cons_succ, List.zip_cons_cons, List.map_cons, List.sum_cons]
          omega
  exact hsum labels s.nodes i hx hn

theorem Pool.le_totalWith (hx : labels[i]? = some x) (hn : s.nodes[i]? = some n) :
    f x n ≤ s.totalWith f labels := by
  refine List.le_sum_of_mem (List.mem_map_of_mem (f := fun x => f x.1 x.2) (a := (x, n)) ?_)
  exact List.mem_of_getElem? (List.getElem?_zip_eq_some.mpr ⟨hx, hn⟩)

theorem Pool.add_le_totalWith {j : ℕ} {y : T} {m : Member S R ε J α} (hx : labels[i]? = some x)
    (hn : s.nodes[i]? = some n) (hy : labels[j]? = some y) (hm : s.nodes[j]? = some m)
    (hne : i ≠ j) : f x n + f y m ≤ s.totalWith f labels := by
  have hi : (labels.zip s.nodes)[i]? = some (x, n) := List.getElem?_zip_eq_some.mpr ⟨hx, hn⟩
  have hj : (labels.zip s.nodes)[j]? = some (y, m) := List.getElem?_zip_eq_some.mpr ⟨hy, hm⟩
  exact add_le_sum_map (fun x => f x.1 x.2) hi hj hne

theorem Pool.totalWith_congr {g : T → Member S R ε J α → ℕ}
    (h : ∀ (i : ℕ) x n, labels[i]? = some x → s.nodes[i]? = some n → f x n = g x n) :
    s.totalWith f labels = s.totalWith g labels := by
  refine congrArg List.sum (List.map_congr_left ?_)
  intro x hx
  obtain ⟨i, hi⟩ := List.mem_iff_getElem?.mp hx
  obtain ⟨hlabel, hn⟩ := List.getElem?_zip_eq_some.mp hi
  exact h i x.1 x.2 hlabel hn

theorem Pool.totalWith_le {g : T → Member S R ε J α → ℕ} (h : ∀ x n, f x n ≤ g x n) :
    s.totalWith f labels ≤ s.totalWith g labels :=
  List.sum_le_sum (fun x _ => h x.1 x.2)

theorem Pool.totalWith_map {U : Type} (k : U → T) {f : T → Member S R ε J α → ℕ} (us : List U) :
    s.totalWith (fun u n => f (k u) n) us = s.totalWith f (us.map k) := by
  simp only [Pool.totalWith, List.zip_map_left, List.map_map]
  rfl

theorem Pool.totalWith_zero : s.totalWith (fun _ _ => 0) labels = 0 := by
  simp [Pool.totalWith]

theorem Pool.totalWith_add (g : T → Member S R ε J α → ℕ) :
    s.totalWith (fun x n => f x n + g x n) labels = s.totalWith f labels + s.totalWith g labels :=
  List.sum_map_add

end Labels

/-- Two processes make up no more than all of them. -/
theorem Pool.add_le_total (f : Member S R ε J α → ℕ) {s : Pool W S R ε J α} {i j : ℕ}
    {n m : Member S R ε J α} (hi : s.nodes[i]? = some n) (hj : s.nodes[j]? = some m)
    (hne : i ≠ j) : f n + f m ≤ s.total f :=
  add_le_sum_map f hi hj hne

end

end Processes
