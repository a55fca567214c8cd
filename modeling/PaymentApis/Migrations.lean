import PaymentApis.Lib.Decimal
import PaymentApis.Lib.Processes

/-!
# `migrate.ts`

`runMigrations` as a process over one database. Several runs may overlap, each
with the list of names it has read at its start. A file's statements and the
insert of its name are one transaction: they show up together, when it commits.
What a statement does to the schema is a parameter.
-/

namespace PaymentApis.Migrations

open TxStore Processes

/-! ## The directory -/

structure File (S : Type) where
  name : Text
  sql : List S

/-- `migrations/`: no two files have one name. -/
structure Directory (S : Type) where
  entries : List (File S)
  nodup : (entries.map (·.name)).Nodup

/-- The UTF-16 code units, by which `sort()` compares. -/
def codeUnits (t : Text) : List ℕ :=
  t.flatMap (fun c =>
    if c.toNat < 0x10000 then [c.toNat]
    else [0xD800 + (c.toNat - 0x10000) / 0x400, 0xDC00 + (c.toNat - 0x10000) % 0x400])

def Directory.files {S : Type} (dir : Directory S) : List (File S) :=
  (dir.entries.filter (fun f => ".sql".toList.isSuffixOf f.name)).insertionSort
    (fun a b => codeUnits a.name ≤ codeUnits b.name)

/-- The migration files in order: the entries whose names end in `.sql`, each
once, sorted. -/
structure Directory.Lists {S : Type} (dir : Directory S) (files : List (File S)) : Prop where
  mem : ∀ f, f ∈ files ↔ f ∈ dir.entries ∧ ∃ stem, f.name = stem ++ ".sql".toList
  nodup : (files.map (·.name)).Nodup
  sorted : files.Pairwise (fun a b => codeUnits a.name ≤ codeUnits b.name)

/-! ## The database -/

/-- An open transaction: its statements so far, and the names it has inserted. -/
structure Transaction (S : Type) where
  sql : List S
  names : List Text
deriving DecidableEq

/-- What is committed, and the open transaction of each run. -/
structure World (S σ : Type) where
  applied : List Text
  schema : σ
  txs : List (ℕ × Transaction S)

inductive Op (S : Type)
  | createTable
  | selectNames
  | readdir
  | readFile (name : Text)
  | connect
  | begin
  | sql (s : S)
  | insertName (name : Text)
  | commit
  | rollback
deriving DecidableEq

@[reducible] def Answer {S : Type} : Op S → Type
  | .selectNames => List Text
  | .createTable => Unit
  | .readdir => Unit
  | .readFile _ => Unit
  | .connect => Unit
  | .begin => Unit
  | .sql _ => Unit
  | .insertName _ => Unit
  | .commit => Unit
  | .rollback => Unit

/-- A statement takes effect, or fails; the answer to a COMMIT that has taken
effect may be lost. -/
inductive Outcome
  | done
  | failed (message : String)
  | lost (message : String)
deriving DecidableEq

section

variable {S σ : Type}

/-- Statements one after the other; `none` where one of them fails. -/
def execAll (exec : S → σ → Option σ) : List S → σ → Option σ
  | [], v => some v
  | s :: ss, v => (exec s v).bind (execAll exec ss)

theorem execAll_append {exec : S → σ → Option σ} : ∀ {ss us : List S} {v : σ},
    execAll exec (ss ++ us) v = (execAll exec ss v).bind (execAll exec us)
  | [], us, v => rfl
  | s :: ss, us, v => by
      simp only [List.cons_append, execAll]
      cases exec s v with
      | none => rfl
      | some u => exact execAll_append

namespace World

def tx (w : World S σ) (i : ℕ) : Option (Transaction S) :=
  (w.txs.find? (fun x => decide (x.1 = i))).map Prod.snd

def dropTx (w : World S σ) (i : ℕ) : World S σ :=
  { w with txs := w.txs.filter (fun x => decide (x.1 ≠ i)) }

def setTx (w : World S σ) (i : ℕ) (t : Transaction S) : World S σ :=
  { w with txs := (i, t) :: w.txs.filter (fun x => decide (x.1 ≠ i)) }

/-- A second insert of a name waits for the first, and fails once that is committed. -/
def taken (w : World S σ) (i : ℕ) (name : Text) : Bool :=
  decide (name ∈ w.applied) || w.txs.any (fun x => decide (x.1 ≠ i) && decide (name ∈ x.2.names))

def installed (exec : S → σ → Option σ) (w : World S σ) (i : ℕ) : Option (World S σ) :=
  (w.tx i).bind (fun t =>
    (execAll exec t.sql w.schema).map (fun v =>
      { w.dropTx i with applied := w.applied ++ t.names, schema := v }))

/-- What takes effect, or fails without effect. -/
def plain {α : Type} (o : Outcome) (w : World S σ) (x : Option (α × World S σ)) :
    Option (Except String α × World S σ) :=
  match o with
  | .done => x.map (fun x => (.ok x.1, x.2))
  | .failed message => some (.error message, w)
  | .lost _ => none

/-- The action of run `i`. A transaction sees what is committed, and its own
statements on top of it. -/
def act (exec : S → σ → Option σ) (i : ℕ) : (s : Op S) → Outcome → World S σ →
    Option (Except String (Answer s) × World S σ)
  | .createTable, o, w => plain o w (some ((), w))
  | .selectNames, o, w => plain o w (some (w.applied, w))
  | .readdir, o, w => plain o w (some ((), w))
  | .readFile _, o, w => plain o w (some ((), w))
  | .connect, o, w => plain o w (some ((), w))
  | .begin, o, w => plain o w (some ((), w.setTx i ⟨[], []⟩))
  | .sql s, o, w =>
    plain o w ((w.tx i).bind (fun t =>
      if (execAll exec (t.sql ++ [s]) w.schema).isSome then
        some ((), w.setTx i ⟨t.sql ++ [s], t.names⟩)
      else none))
  | .insertName name, o, w =>
    plain o w ((w.tx i).bind (fun t =>
      if w.taken i name then none else some ((), w.setTx i ⟨t.sql, t.names ++ [name]⟩)))
  | .commit, o, w =>
    match o with
    | .done => (w.installed exec i).map (fun w' => (.ok (), w'))
    | .lost message => (w.installed exec i).map (fun w' => (.error message, w'))
    | .failed message => some (.error message, w.dropTx i)
  | .rollback, o, w =>
    match o with
    | .done => some (.ok (), w.dropTx i)
    | .failed message => some (.error message, w.dropTx i)
    | .lost _ => none

end World

/-- A crash closes the connection, and with it the transaction. -/
def device (exec : S → σ → Option σ) :
    Device (World S σ) (Op S) Answer String Outcome Unit Empty where
  act := fun i _ => World.act exec i
  birth := fun _ _ w => some w
  crash := fun i _ w => w.dropTx i
  event := fun e _ => nomatch e

/-! ## `runMigrations` -/

abbrev MigrationScript (S : Type) := Script (Op S) Answer String

abbrev query (s : Op S) : MigrationScript S (Answer s) := Client.exec s

def runAll : List S → MigrationScript S Unit
  | [] => return ()
  | s :: ss => do
    query (.sql s)
    runAll ss

/-- The `try` block, and its `catch`. -/
def applyFile (file : File S) : MigrationScript S Unit :=
  (do
    query .begin
    runAll file.sql
    query (.insertName file.name)
    query .commit).tryCatch (fun err => do
      query .rollback
      .throw err)

def applyFiles (applied : List Text) : List (File S) → MigrationScript S Unit
  | [] => return ()
  | file :: files =>
    if file.name ∈ applied then applyFiles applied files
    else do
      query (.readFile file.name)
      query .connect
      applyFile file
      applyFiles applied files

def runMigrations (dir : Directory S) : MigrationScript S Unit := do
  query .createTable
  let applied ← query .selectNames
  query .readdir
  applyFiles applied dir.files

/-! ## What a record says -/

abbrev Done (S : Type) := Did (Op S) Answer String

abbrev Run (S : Type) := Member (Op S) Answer String Unit Unit

abbrev Runners (S σ : Type) := Pool (World S σ) (Op S) Answer String Unit Unit

/-- What a run knows: the names it has read, those it has committed, and its open
transaction. -/
structure View (S : Type) where
  listed : List Text
  committed : List Text
  tx : Option (Transaction S)

def View.begin : View S := ⟨[], [], none⟩

def View.after (v : View S) : Done S → View S
  | ⟨.selectNames, .ok names⟩ => { v with listed := names }
  | ⟨.begin, .ok _⟩ => { v with tx := some ⟨[], []⟩ }
  | ⟨.sql s, .ok _⟩ => { v with tx := v.tx.map (fun t => ⟨t.sql ++ [s], t.names⟩) }
  | ⟨.insertName name, .ok _⟩ => { v with tx := v.tx.map (fun t => ⟨t.sql, t.names ++ [name]⟩) }
  | ⟨.commit, .ok _⟩ => ⟨v.listed, v.committed ++ v.tx.toList.flatMap (·.names), none⟩
  | ⟨.commit, .error _⟩ => { v with tx := none }
  | ⟨.rollback, _⟩ => { v with tx := none }
  | _ => v

def view (log : List (Done S)) : View S := log.foldl View.after .begin

@[simp] theorem view_nil : view ([] : List (Done S)) = .begin := rfl

@[simp] theorem view_append (log : List (Done S)) (d : Done S) :
    view (log ++ [d]) = (view log).after d := by
  simp [view]

/-- The first `j` files are known to be applied. -/
def View.Settled (files : List (File S)) (v : View S) (j : ℕ) : Prop :=
  ∀ f ∈ files.take j, f.name ∈ v.listed ∨ f.name ∈ v.committed

/-- What a run does after what: the statements of the next file, then its name,
then the COMMIT. -/
def runMay (files : List (File S)) (log : List (Done S)) : Op S → Prop
  | .begin => (view log).tx = none
  | .sql _ => ∃ t, (view log).tx = some t ∧ t.names = []
  | .insertName name => ∃ j f, files[j]? = some f ∧ (view log).Settled files j ∧
      (view log).tx = some ⟨f.sql, []⟩ ∧ name = f.name
  | .commit => ∃ j f, files[j]? = some f ∧ (view log).Settled files j ∧
      (view log).tx = some ⟨f.sql, [f.name]⟩
  | _ => True

/-! ### The script keeps to it -/

section Scripts

variable {files : List (File S)} {applied : List Text} {j : ℕ} {v : View S}

/-- A run that is through with the first `j` files, and its open transaction. -/
structure At (files : List (File S)) (applied : List Text) (j : ℕ) (tx : Option (Transaction S))
    (v : View S) : Prop where
  listed : v.listed = applied
  settled : v.Settled files j
  tx : v.tx = tx

theorem At.next {tx : Option (Transaction S)} {f : File S} (h : At files applied j tx v)
    (hf : files[j]? = some f) {w : View S} (hlisted : w.listed = applied) (htx : w.tx = none)
    (hcommitted : ∀ name ∈ v.committed, name ∈ w.committed)
    (hname : f.name ∈ w.listed ∨ f.name ∈ w.committed) : At files applied (j + 1) none w := by
  refine ⟨hlisted, ?_, htx⟩
  intro g hg
  rw [List.take_add_one, hf, List.mem_append] at hg
  rcases hg with hg | hg
  · rw [hlisted, ← h.listed]
    exact (h.settled g hg).imp_right (hcommitted _)
  · obtain rfl := List.mem_singleton.mp hg
    exact hname

theorem At.sql {t : Transaction S} (h : At files applied j (some t) v) (s : S)
    (r : Answer (Op.sql s)) :
    At files applied j (some ⟨t.sql ++ [s], t.names⟩) (v.after ⟨.sql s, .ok r⟩) :=
  ⟨h.listed, h.settled, by rw [View.after, h.tx]; rfl⟩

theorem At.insertName {t : Transaction S} (h : At files applied j (some t) v) (name : Text)
    (r : Answer (Op.insertName name : Op S)) :
    At files applied j (some ⟨t.sql, t.names ++ [name]⟩) (v.after ⟨.insertName name, .ok r⟩) :=
  ⟨h.listed, h.settled, by rw [View.after, h.tx]; rfl⟩

theorem At.commit {t : Transaction S} (h : At files applied j (some t) v) {f : File S}
    (hf : files[j]? = some f) (hname : f.name ∈ t.names) (r : Answer (Op.commit : Op S)) :
    At files applied (j + 1) none (v.after ⟨.commit, .ok r⟩) := by
  refine h.next hf h.listed rfl (fun _ => List.mem_append_left _) (.inr ?_)
  rw [View.after, h.tx]
  exact List.mem_append_right _ (by simpa using hname)

/-- One action, with what its record is then. -/
theorem query_issues {log : List (Done S)} {s : Op S} {Q : List (Done S) → Answer s → Prop}
    {X : List (Done S) → String → Prop} (hmay : runMay files log s)
    (hq : ∀ r, Q (log ++ [⟨s, .ok r⟩]) r) (hx : ∀ e, X (log ++ [⟨s, .error e⟩]) e) :
    Issues (fun _ _ _ => True) (runMay files) Q X log (query s) :=
  Issues.exec hmay (fun r _ => hq r) (fun e _ => hx e)

theorem runAll_issues {X : List (Done S) → String → Prop} (hx : ∀ log e, X log e) :
    ∀ {todo sql : List S} {log : List (Done S)},
      At files applied j (some ⟨sql, []⟩) (view log) → Issues (fun _ _ _ => True) (runMay files)
        (fun log _ => At files applied j (some ⟨sql ++ todo, []⟩) (view log)) X log (runAll todo)
  | [], sql, log, h => by
      rw [List.append_nil]
      exact h
  | s :: todo, sql, log, h => by
      refine Issues.bind (Q := fun log _ => At files applied j (some ⟨sql ++ [s], []⟩) (view log))
        ?_ (query_issues ⟨_, h.tx, rfl⟩ ?_ (fun _ => hx _ _))
      · intro log _ h'
        rw [← List.singleton_append, ← List.append_assoc]
        exact runAll_issues hx h'
      · intro r
        rw [view_append]
        exact h.sql s r

theorem applyFile_issues {f : File S} (hf : files[j]? = some f) {log : List (Done S)}
    (h : At files applied j none (view log)) : Issues (fun _ _ _ => True) (runMay files)
      (fun log _ => At files applied (j + 1) none (view log)) (fun _ _ => True) log
      (applyFile f) := by
  refine Issues.tryCatch (X := fun _ _ => True) ?_ ?_
  · intro log e _
    refine Issues.bind (Q := fun _ _ => True) ?_ (query_issues trivial (fun _ => trivial)
      (fun _ => trivial))
    exact fun _ _ _ => trivial
  refine Issues.bind (Q := fun log _ => At files applied j (some ⟨[], []⟩) (view log)) ?_
    (query_issues h.tx ?_ (fun _ => trivial))
  · intro log _ hbegun
    refine Issues.bind ?_ (runAll_issues (fun _ _ => trivial) hbegun)
    intro log _ hran
    refine Issues.bind (Q := fun log _ => At files applied j (some ⟨f.sql, [f.name]⟩) (view log))
      ?_ (query_issues ⟨j, f, hf, hran.settled, hran.tx, rfl⟩ ?_ (fun _ => trivial))
    · intro log _ hinserted
      refine query_issues ⟨j, f, hf, hinserted.settled, hinserted.tx⟩ ?_ (fun _ => trivial)
      intro r
      rw [view_append]
      exact hinserted.commit hf List.mem_cons_self r
    · intro r
      rw [view_append]
      exact hran.insertName f.name r
  · intro _
    rw [view_append]
    exact ⟨h.listed, h.settled, rfl⟩

theorem applyFiles_issues : ∀ {rest : List (File S)} {j : ℕ} {log : List (Done S)},
    At files applied j none (view log) → rest = files.drop j →
    Issues (fun _ _ _ => True) (runMay files)
      (fun log _ => At files applied files.length none (view log)) (fun _ _ => True) log
      (applyFiles applied rest)
  | [], j, log, h, hrest => by
      refine ⟨h.listed, ?_, h.tx⟩
      intro f hf
      apply h.settled f
      rw [List.take_length] at hf
      rwa [List.take_of_length_le (List.drop_eq_nil_iff.mp hrest.symm)]
  | f :: rest, j, log, h, hrest => by
      have hf : files[j]? = some f := by
        rw [← List.head?_drop, ← hrest, List.head?_cons]
      have hdrop : rest = files.drop (j + 1) := by
        rw [← List.tail_drop, ← hrest, List.tail_cons]
      unfold applyFiles
      split
      · rename_i hmem
        refine applyFiles_issues (h.next hf h.listed h.tx (fun _ h => h) (.inl ?_)) hdrop
        rwa [h.listed]
      · refine Issues.bind (Q := fun log _ => At files applied j none (view log)) ?_
          (query_issues trivial ?_ (fun _ => trivial))
        · intro log _ hread
          refine Issues.bind (Q := fun log _ => At files applied j none (view log)) ?_
            (query_issues trivial ?_ (fun _ => trivial))
          · intro log _ hconnected
            refine Issues.bind ?_ (applyFile_issues hf hconnected)
            intro log _ hnext
            exact applyFiles_issues hnext hdrop
          · intro _
            rw [view_append]
            exact hread
        · intro _
          rw [view_append]
          exact h

theorem runMigrations_issues (dir : Directory S) :
    Issues (fun _ _ _ => True) (runMay dir.files)
      (fun log _ => (view log).Settled dir.files dir.files.length) (fun _ _ => True) []
      (runMigrations dir) := by
  refine Issues.bind (Q := fun log _ => view log = .begin) ?_
    (query_issues trivial ?_ (fun _ => trivial))
  · intro log _ hbegin
    refine Issues.bind (Q := fun log applied => At dir.files applied 0 none (view log)) ?_
      (query_issues trivial ?_ (fun _ => trivial))
    · intro log applied h
      refine Issues.bind (Q := fun log _ => At dir.files applied 0 none (view log)) ?_
        (query_issues trivial ?_ (fun _ => trivial))
      · intro log _ h
        refine Issues.imp ?_ (fun _ _ _ => trivial) (applyFiles_issues h rfl)
        intro log _ h
        exact h.settled
      · intro _
        rw [view_append]
        exact ⟨h.listed, h.settled, h.tx⟩
    · intro applied
      rw [view_append, hbegin]
      refine ⟨rfl, ?_, rfl⟩
      simp [View.Settled]
  · intro _
    rw [view_append]
    rfl

end Scripts

def discipline (exec : S → σ → Option σ) (dir : Directory S) :
    Discipline (device exec) (fun _ => runMigrations dir) where
  Gives := fun _ _ _ => True
  May := fun _ => runMay dir.files
  gives := fun _ _ => trivial
  issues := fun _ => Issues.imp (fun _ _ _ => trivial) (fun _ _ _ => trivial)
    (runMigrations_issues dir)

/-! ## The invariant -/

theorem Directory.nodup_files (dir : Directory S) : (dir.files.map (·.name)).Nodup := by
  have hperm := (List.perm_insertionSort (fun a b : File S => codeUnits a.name ≤ codeUnits b.name)
    (dir.entries.filter (fun f => ".sql".toList.isSuffixOf f.name))).map (·.name)
  exact hperm.nodup_iff.mpr (dir.nodup.sublist (List.filter_sublist.map _))

theorem Directory.lists_files (dir : Directory S) : dir.Lists dir.files := by
  refine ⟨?_, dir.nodup_files, ?_⟩
  · intro f
    rw [Directory.files, List.mem_insertionSort, List.mem_filter, List.isSuffixOf_iff_suffix]
    constructor
    · rintro ⟨hmem, stem, hstem⟩
      exact ⟨hmem, stem, hstem.symm⟩
    · rintro ⟨hmem, stem, hstem⟩
      exact ⟨hmem, stem, hstem.symm⟩
  · have : Std.Total (fun a b : File S => codeUnits a.name ≤ codeUnits b.name) :=
      ⟨fun a b => le_total (codeUnits a.name) (codeUnits b.name)⟩
    have : IsTrans (File S) (fun a b => codeUnits a.name ≤ codeUnits b.name) :=
      ⟨fun _ _ _ => le_trans⟩
    exact List.pairwise_insertionSort _ _

namespace World

variable {w : World S σ} {i j : ℕ}

@[simp] theorem tx_dropTx : (w.dropTx i).tx j = if j = i then none else w.tx j := by
  simp only [tx, dropTx, List.find?_filter]
  by_cases hj : j = i
  · subst hj
    simp
  · rw [if_neg hj]
    congr 2
    funext x
    by_cases hx : x.1 = j <;> simp [hx, hj]

@[simp] theorem tx_setTx (t : Transaction S) :
    (w.setTx i t).tx j = if j = i then some t else w.tx j := by
  have hdrop := tx_dropTx (w := w) (i := i) (j := j)
  simp only [tx, dropTx, setTx] at hdrop ⊢
  by_cases hj : j = i
  · subst hj
    simp
  · rw [List.find?_cons_of_neg (by simpa using Ne.symm hj), hdrop, if_neg hj, if_neg hj]

theorem mem_txs {t : Transaction S} (h : w.tx i = some t) : (i, t) ∈ w.txs := by
  obtain ⟨x, hx, rfl⟩ := Option.map_eq_some_iff.mp h
  have hi : x.1 = i := by simpa using List.find?_some hx
  rw [← hi]
  exact List.mem_of_find?_eq_some hx

/-- A name that can be inserted is neither committed nor inserted by another run. -/
theorem taken_eq_false {name : Text} (h : w.taken i name = false) : name ∉ w.applied ∧
    ∀ j t, j ≠ i → w.tx j = some t → name ∉ t.names := by
  simp only [taken, Bool.or_eq_false_iff, decide_eq_false_iff_not, List.any_eq_false] at h
  refine ⟨h.1, ?_⟩
  intro j t hj ht hname
  have hno := h.2 _ (mem_txs ht)
  simp [hj, hname] at hno

end World

/-- The schema is what the first `k` files make of the empty one. -/
def UpTo (exec : S → σ → Option σ) (files : List (File S)) (schema₀ : σ) (w : World S σ) (k : ℕ) :
    Prop :=
  k ≤ files.length ∧ w.applied = (files.take k).map (·.name) ∧
    execAll exec ((files.take k).flatMap (·.sql)) schema₀ = some w.schema

/-- The committed state is that of a number of files, and no open transaction has
inserted a committed name or another one's name. -/
structure Sound (exec : S → σ → Option σ) (files : List (File S)) (schema₀ : σ)
    (s : Runners S σ) : Prop where
  upTo : ∃ k, UpTo exec files schema₀ s.world k
  fresh : ∀ i t, s.world.tx i = some t → ∀ name ∈ t.names, name ∉ s.world.applied
  apart : ∀ i j t u, i ≠ j → s.world.tx i = some t → s.world.tx j = some u →
    ∀ name ∈ t.names, name ∉ u.names
  views : ∀ i n, s.nodes[i]? = some n → n.script.isSome = true → s.world.tx i = (view n.log).tx
  known : ∀ n ∈ s.nodes, ∀ name, name ∈ (view n.log).listed ∨ name ∈ (view n.log).committed →
    name ∈ s.world.applied
  unborn : ∀ i, s.nodes.length ≤ i → s.world.tx i = none

section Step

variable {exec : S → σ → Option σ} {files : List (File S)} {schema₀ : σ} {s : Runners S σ}
  {w : World S σ} {i : ℕ} {n m : Run S}

/-- The step of one run, from what it does to the database. -/
theorem Sound.set (h : Sound exec files schema₀ s) (hn : s.nodes[i]? = some n)
    (hupTo : ∃ k, UpTo exec files schema₀ w k)
    (happlied : ∀ name ∈ s.world.applied, name ∈ w.applied)
    (hothers : ∀ j, j ≠ i → w.tx j = s.world.tx j)
    (hfresh : ∀ j t, w.tx j = some t → ∀ name ∈ t.names, name ∉ w.applied)
    (hapart : ∀ t, w.tx i = some t → ∀ j u, j ≠ i → w.tx j = some u →
      ∀ name ∈ t.names, name ∉ u.names)
    (hview : m.script.isSome = true → w.tx i = (view m.log).tx)
    (hknown : ∀ name, name ∈ (view m.log).listed ∨ name ∈ (view m.log).committed →
      name ∈ w.applied) : Sound exec files schema₀ ⟨w, s.nodes.set i m⟩ where
  upTo := hupTo
  fresh := hfresh
  apart := by
    intro j k t u hjk ht hu name hname hmem
    by_cases hj : j = i
    · subst hj
      exact hapart t ht k u (Ne.symm hjk) hu name hname hmem
    · by_cases hk : k = i
      · subst hk
        exact hapart u hu j t hjk ht name hmem hname
      · rw [hothers j hj] at ht
        rw [hothers k hk] at hu
        exact h.apart j k t u hjk ht hu name hname hmem
  views := by
    intro j k hk hlive
    rw [List.getElem?_set] at hk
    split at hk
    · rename_i hij
      subst hij
      split at hk
      · cases hk
        exact hview hlive
      · cases hk
    · rename_i hij
      rw [hothers j (Ne.symm hij)]
      exact h.views j k hk hlive
  known := by
    intro k hk name hname
    rcases List.mem_or_eq_of_mem_set hk with hk | rfl
    · exact happlied name (h.known k hk name hname)
    · exact hknown name hname
  unborn := by
    intro j hj
    rw [List.length_set] at hj
    have hi := (List.getElem?_eq_some_iff.mp hn).1
    rw [hothers j (by omega)]
    exact h.unborn j hj

/-- A step that commits nothing: its transaction may have inserted what is free. -/
theorem Sound.keep (h : Sound exec files schema₀ s) (hn : s.nodes[i]? = some n)
    (happlied : w.applied = s.world.applied) (hschema : w.schema = s.world.schema)
    (hothers : ∀ j, j ≠ i → w.tx j = s.world.tx j)
    (hnames : ∀ t, w.tx i = some t → ∀ name ∈ t.names,
      (∃ u, s.world.tx i = some u ∧ name ∈ u.names) ∨ s.world.taken i name = false)
    (hview : m.script.isSome = true → w.tx i = (view m.log).tx)
    (hknown : ∀ name, name ∈ (view m.log).listed ∨ name ∈ (view m.log).committed →
      name ∈ s.world.applied) : Sound exec files schema₀ ⟨w, s.nodes.set i m⟩ := by
  refine h.set hn ?_ (fun _ hname => happlied ▸ hname) hothers ?_ ?_ hview
    (fun name hname => happlied ▸ hknown name hname)
  · obtain ⟨k, hk, hnames, hexec⟩ := h.upTo
    exact ⟨k, hk, happlied.trans hnames, hschema ▸ hexec⟩
  · intro j t ht name hname
    rw [happlied]
    by_cases hj : j = i
    · subst hj
      rcases hnames t ht name hname with ⟨u, hu, hmem⟩ | hfree
      · exact h.fresh j u hu name hmem
      · exact (World.taken_eq_false hfree).1
    · exact h.fresh j t (hothers j hj ▸ ht) name hname
  · intro t ht j u hj hu name hname
    rw [hothers j hj] at hu
    rcases hnames t ht name hname with ⟨v, hv, hmem⟩ | hfree
    · exact h.apart i j v u (Ne.symm hj) hv hu name hmem
    · exact (World.taken_eq_false hfree).2 j u hj hu

/-- The file after the first `k` is not one of them. -/
theorem UpTo.next {k : ℕ} (hnodup : (files.map (·.name)).Nodup)
    (h : UpTo exec files schema₀ w k) (hk : k < files.length) :
    files[k].name ∉ w.applied := by
  obtain ⟨-, hnames, -⟩ := h
  rw [hnames, List.mem_map]
  rintro ⟨g, hg, hname⟩
  obtain ⟨a, ha, rfl⟩ := List.mem_take_iff_getElem.mp hg
  have hlt : a < files.length := by omega
  have hak : (⟨a, by simpa using hlt⟩ : Fin (files.map (·.name)).length) =
      ⟨k, by simpa using hk⟩ :=
    List.nodup_iff_injective_get.mp hnodup (by simpa using hname)
  have hak : a = k := Fin.mk.inj hak
  omega

/-- The file that is committed is the next one. -/
theorem UpTo.commit {k j : ℕ} {f : File S} (hnodup : (files.map (·.name)).Nodup)
    (h : UpTo exec files schema₀ w k) (hf : files[j]? = some f)
    (hsettled : ∀ g ∈ files.take j, g.name ∈ w.applied) (hfresh : f.name ∉ w.applied) {v : σ}
    (hv : execAll exec f.sql w.schema = some v) {w' : World S σ}
    (happlied : w'.applied = w.applied ++ [f.name]) (hschema : w'.schema = v) :
    UpTo exec files schema₀ w' (k + 1) := by
  obtain ⟨hj, hget⟩ := List.getElem?_eq_some_iff.mp hf
  have hjk : j = k := by
    rcases Nat.lt_trichotomy j k with hlt | heq | hgt
    · refine absurd ?_ hfresh
      rw [h.2.1, ← hget]
      exact List.mem_map_of_mem (List.mem_take_iff_getElem.mpr ⟨j, by omega, rfl⟩)
    · exact heq
    · have hlt : k < files.length := by omega
      exact absurd (hsettled files[k] (List.mem_take_iff_getElem.mpr ⟨k, by omega, rfl⟩))
        (h.next hnodup hlt)
  obtain ⟨hk, hnames, hexec⟩ := h
  subst hjk
  have htake : files.take (j + 1) = files.take j ++ [f] := by rw [List.take_add_one, hf]; rfl
  refine ⟨hj, ?_, ?_⟩
  · rw [happlied, hnames, htake, List.map_append]
    rfl
  · rw [htake, List.flatMap_append, execAll_append, hexec, hschema]
    simpa using hv

/-- One action of a run. -/
theorem Sound.run (hnodup : (files.map (·.name)).Nodup) (h : Sound exec files schema₀ s)
    (hn : s.nodes[i]? = some n) (hlive : n.script.isSome = true) {st : Op S} {o : Outcome}
    {r : Except String (Answer st)} {c : MigrationScript S Unit} (hmay : runMay files n.log st)
    (hact : World.act exec i st o s.world = some (r, w)) :
    Sound exec files schema₀ ⟨w, s.nodes.set i ⟨n.job, n.log ++ [⟨st, r⟩], some c⟩⟩ := by
  have htx := h.views i n hn hlive
  have hknown := h.known n (List.mem_of_getElem? hn)
  -- what leaves the database alone
  have hquiet : w = s.world → (view n.log).after ⟨st, r⟩ = view n.log →
      Sound exec files schema₀ ⟨w, s.nodes.set i ⟨n.job, n.log ++ [⟨st, r⟩], some c⟩⟩ := by
    rintro rfl hsame
    refine h.keep hn rfl rfl (fun _ _ => rfl) (fun t ht name hname => .inl ⟨t, ht, hname⟩) ?_ ?_
    · intro _
      rw [view_append, hsame, htx]
    · intro name hname
      rw [view_append, hsame] at hname
      exact hknown name hname
  have hplain : ∀ {α : Type} {x : Option (α × World S σ)} {y : Except String α},
      World.plain o s.world x = some (y, w) →
      (∃ x', x = some x' ∧ y = .ok x'.1 ∧ w = x'.2) ∨ ∃ e, y = .error e ∧ w = s.world := by
    intro α x y hp
    cases o with
    | done =>
      obtain ⟨x', rfl, hx'⟩ := Option.map_eq_some_iff.mp hp
      cases hx'
      exact .inl ⟨x', rfl, rfl, rfl⟩
    | failed e =>
      cases hp
      exact .inr ⟨e, rfl, rfl⟩
    | lost e => cases hp
  have hdropped : w = s.world.dropTx i → ((view n.log).after ⟨st, r⟩).tx = none →
      ((view n.log).after ⟨st, r⟩).listed = (view n.log).listed →
      ((view n.log).after ⟨st, r⟩).committed = (view n.log).committed →
      Sound exec files schema₀ ⟨w, s.nodes.set i ⟨n.job, n.log ++ [⟨st, r⟩], some c⟩⟩ := by
    rintro rfl hnone hlisted hcommitted
    refine h.keep hn rfl rfl (fun j hj => by simp [hj]) (by simp) ?_ ?_
    · intro _
      rw [view_append, hnone]
      simp
    · intro name hname
      rw [view_append, hlisted, hcommitted] at hname
      exact hknown name hname
  cases st with
  | createTable =>
    rcases hplain hact with ⟨x, hx, rfl, rfl⟩ | ⟨e, rfl, hw⟩
    · cases hx
      exact hquiet rfl rfl
    · exact hquiet hw rfl
  | readdir =>
    rcases hplain hact with ⟨x, hx, rfl, rfl⟩ | ⟨e, rfl, hw⟩
    · cases hx
      exact hquiet rfl rfl
    · exact hquiet hw rfl
  | readFile name =>
    rcases hplain hact with ⟨x, hx, rfl, rfl⟩ | ⟨e, rfl, hw⟩
    · cases hx
      exact hquiet rfl rfl
    · exact hquiet hw rfl
  | connect =>
    rcases hplain hact with ⟨x, hx, rfl, rfl⟩ | ⟨e, rfl, hw⟩
    · cases hx
      exact hquiet rfl rfl
    · exact hquiet hw rfl
  | selectNames =>
    rcases hplain hact with ⟨x, hx, rfl, rfl⟩ | ⟨e, rfl, hw⟩
    · cases hx
      refine h.keep hn rfl rfl (fun _ _ => rfl) (fun t ht name hname => .inl ⟨t, ht, hname⟩) ?_ ?_
      · intro _
        rw [view_append]
        exact htx
      · intro name hname
        rw [view_append] at hname
        exact hname.elim id (fun hname => hknown name (.inr hname))
    · exact hquiet hw rfl
  | begin =>
    rcases hplain hact with ⟨x, hx, rfl, rfl⟩ | ⟨e, rfl, hw⟩
    · cases hx
      refine h.keep hn rfl rfl (fun j hj => by simp [hj]) ?_ ?_ ?_
      · intro t ht name hname
        rw [World.tx_setTx, if_pos rfl] at ht
        cases ht
        exact absurd hname List.not_mem_nil
      · intro _
        rw [view_append, World.tx_setTx, if_pos rfl]
        rfl
      · intro name hname
        rw [view_append] at hname
        exact hknown name hname
    · exact hquiet hw rfl
  | sql s' =>
    rcases hplain hact with ⟨x, hx, rfl, rfl⟩ | ⟨e, rfl, hw⟩
    · obtain ⟨t, ht, hx⟩ := Option.bind_eq_some_iff.mp hx
      split at hx <;> cases hx
      refine h.keep hn rfl rfl (fun j hj => by simp [hj]) ?_ ?_ ?_
      · intro u hu name hname
        rw [World.tx_setTx, if_pos rfl] at hu
        cases hu
        exact .inl ⟨t, ht, hname⟩
      · intro _
        rw [view_append, World.tx_setTx, if_pos rfl, View.after, ← htx, ht]
        rfl
      · intro name hname
        rw [view_append] at hname
        exact hknown name hname
    · exact hquiet hw rfl
  | insertName name =>
    rcases hplain hact with ⟨x, hx, rfl, rfl⟩ | ⟨e, rfl, hw⟩
    · obtain ⟨t, ht, hx⟩ := Option.bind_eq_some_iff.mp hx
      split at hx <;> cases hx
      rename_i hfree
      refine h.keep hn rfl rfl (fun j hj => by simp [hj]) ?_ ?_ ?_
      · intro u hu name' hname
        rw [World.tx_setTx, if_pos rfl] at hu
        cases hu
        rcases List.mem_append.mp hname with hname | hname
        · exact .inl ⟨t, ht, hname⟩
        · obtain rfl := List.mem_singleton.mp hname
          exact .inr (by simpa using hfree)
      · intro _
        rw [view_append, World.tx_setTx, if_pos rfl, View.after, ← htx, ht]
        rfl
      · intro name' hname
        rw [view_append] at hname
        exact hknown name' hname
    · exact hquiet hw rfl
  | commit =>
    obtain ⟨j, f, hf, hsettled, hopen⟩ := hmay
    have hcommitted : s.world.installed exec i = some w →
        ((view n.log).after ⟨.commit, r⟩).tx = none →
        (∀ name, name ∈ ((view n.log).after ⟨.commit, r⟩).listed ∨
          name ∈ ((view n.log).after ⟨.commit, r⟩).committed →
          name ∈ s.world.applied ∨ name = f.name) →
        Sound exec files schema₀
          ⟨w, s.nodes.set i ⟨n.job, n.log ++ [⟨.commit, r⟩], some c⟩⟩ := by
      intro hinstalled hnone hnames
      obtain ⟨k, hk⟩ := h.upTo
      obtain ⟨t, ht, hx⟩ := Option.bind_eq_some_iff.mp hinstalled
      obtain ⟨v, hv, rfl⟩ := Option.map_eq_some_iff.mp hx
      rw [htx, hopen, Option.some.injEq] at ht
      subst ht
      have hopenTx : s.world.tx i = some ⟨f.sql, [f.name]⟩ := htx.trans hopen
      have hfree : f.name ∉ s.world.applied := h.fresh i _ hopenTx f.name List.mem_cons_self
      refine h.set hn ⟨k + 1, hk.commit hnodup hf ?_ hfree hv rfl rfl⟩
        (fun name hname => List.mem_append_left _ hname) ?_ ?_ ?_ ?_ ?_
      · exact fun g hg => hknown g.name (hsettled g hg)
      · intro j hj
        exact World.tx_dropTx.trans (if_neg hj)
      · intro j u hu name hname hmem
        have hji : j ≠ i := by
          rintro rfl
          exact absurd (World.tx_dropTx.symm.trans hu) (by simp)
        have hold : s.world.tx j = some u := (World.tx_dropTx.trans (if_neg hji)).symm.trans hu
        rcases List.mem_append.mp hmem with hmem | hmem
        · exact h.fresh j u hold name hname hmem
        · obtain rfl := List.mem_singleton.mp hmem
          exact h.apart i j _ u (Ne.symm hji) hopenTx hold f.name List.mem_cons_self hname
      · intro u hu
        exact absurd (World.tx_dropTx.symm.trans hu) (by simp)
      · intro _
        rw [view_append, hnone]
        exact World.tx_dropTx.trans (if_pos rfl)
      · intro name hname
        rw [view_append] at hname
        rcases hnames name hname with hname | rfl
        · exact List.mem_append_left _ hname
        · exact List.mem_append_right _ List.mem_cons_self
    cases o with
    | done =>
      obtain ⟨w', hw', hx⟩ := Option.map_eq_some_iff.mp hact
      cases hx
      refine hcommitted hw' rfl ?_
      intro name hname
      rw [View.after, hopen] at hname
      rcases hname with hname | hname
      · exact .inl (hknown name (.inl hname))
      · rcases List.mem_append.mp hname with hname | hname
        · exact .inl (hknown name (.inr hname))
        · exact .inr (by simpa using hname)
    | lost e =>
      obtain ⟨w', hw', hx⟩ := Option.map_eq_some_iff.mp hact
      cases hx
      exact hcommitted hw' rfl (fun name hname => .inl (hknown name hname))
    | failed e =>
      cases hact
      exact hdropped rfl rfl rfl rfl
  | rollback => cases o <;> cases hact <;> exact hdropped rfl rfl rfl rfl

theorem Sound.start (h : Sound exec files schema₀ s) {c : MigrationScript S Unit} :
    Sound exec files schema₀ ⟨s.world, s.nodes ++ [⟨(), [], some c⟩]⟩ where
  upTo := h.upTo
  fresh := h.fresh
  apart := h.apart
  views := by
    intro j k hk hlive
    rw [List.getElem?_append] at hk
    split at hk
    · exact h.views j k hk hlive
    · rename_i hj
      rw [List.getElem?_singleton] at hk
      split at hk
      · cases hk
        exact h.unborn j (by omega)
      · cases hk
  known := by
    intro k hk name hname
    rcases List.mem_append.mp hk with hk | hk
    · exact h.known k hk name hname
    · obtain rfl := List.mem_singleton.mp hk
      exact absurd hname (by simp [View.begin])
  unborn := by
    intro j hj
    rw [List.length_append] at hj
    exact h.unborn j (by omega)

theorem Sound.crash (h : Sound exec files schema₀ s) (hn : s.nodes[i]? = some n) :
    Sound exec files schema₀ ⟨s.world.dropTx i, s.nodes.set i { n with script := none }⟩ := by
  refine h.keep hn rfl rfl (fun j hj => by simp [hj]) (by simp) (fun hlive => nomatch hlive) ?_
  exact h.known n (List.mem_of_getElem? hn)

end Step

/-! ## Every run -/

section Runs

variable {exec : S → σ → Option σ} {dir : Directory S} {schema₀ : σ} {s t : Runners S σ}

/-- Nothing is applied yet, and the runs come. -/
def unapplied (schema₀ : σ) : Runners S σ := Pool.begin ⟨[], schema₀, []⟩

theorem Sound.begin : Sound exec dir.files schema₀ (unapplied schema₀ : Runners S σ) where
  upTo := ⟨0, Nat.zero_le _, rfl, rfl⟩
  fresh := by simp [unapplied, Pool.begin, World.tx]
  apart := by simp [unapplied, Pool.begin, World.tx]
  views := by simp [unapplied, Pool.begin]
  known := by simp [unapplied, Pool.begin]
  unborn := by simp [unapplied, Pool.begin, World.tx]

theorem Sound.move {l : Label Outcome Unit Empty} (h : Sound exec dir.files schema₀ s)
    (hmove : Move (discipline exec dir) s l t) : Sound exec dir.files schema₀ t := by
  cases hmove with
  | start hborn =>
    cases hborn
    exact h.start
  | run hn hscript _ hmay hact => exact h.run dir.nodup_files hn (by rw [hscript]; rfl) hmay hact
  | crash hn hlive => exact h.crash hn
  | @event e w hhappens => exact e.elim

/-- A run that has come to its end without an error. -/
def Run.completed (n : Run S) : Bool :=
  match n.script with
  | some (.ret _) => true
  | _ => false

theorem Run.script_of_completed {n : Run S} (h : n.completed = true) :
    n.script = some (.ret ()) := by
  unfold Run.completed at h
  split at h
  · assumption
  · exact absurd h Bool.false_ne_true

/-- The files are the sorted `.sql` entries of the directory. However many runs
overlap and wherever they fail or crash, the applied files are the first `k` of
them in their order, the schema is what these make of the first one, each
executed once, and a run that completes leaves all files applied. -/
theorem migrations_apply_in_order
    (h : Runs (device exec) (fun _ => runMigrations dir) (fun _ _ => True) (unapplied schema₀) t) :
    dir.Lists dir.files ∧
    (∃ k ≤ dir.files.length, t.world.applied = (dir.files.take k).map (·.name) ∧
      execAll exec ((dir.files.take k).flatMap (·.sql)) schema₀ = some t.world.schema) ∧
    ∀ n ∈ t.nodes, Run.completed n = true → t.world.applied = dir.files.map (·.name) := by
  have hsound : Sound exec dir.files schema₀ t := by
    refine Runs.invariant (K := discipline exec dir) ?_
      ((discipline exec dir).follows_begin _) h Sound.begin
    intro s t l hs hmove _
    exact hs.move hmove
  have hobeys : Pool.Obeys (fun _ _ _ => True) (fun _ => runMay dir.files)
      (fun _ log _ => (view log).Settled dir.files dir.files.length) (fun _ _ _ => True) t :=
    ((discipline exec dir).follows_begin _).obeys_runs (fun _ => runMigrations_issues dir) h
      (Pool.obeys_begin _)
  refine ⟨dir.lists_files, hsound.upTo, ?_⟩
  intro n hn hcompleted
  have hsettled : (view n.log).Settled dir.files dir.files.length :=
    hobeys n hn _ (Run.script_of_completed hcompleted)
  obtain ⟨k, hupTo⟩ := hsound.upTo
  obtain ⟨hk, hnames, -⟩ := id hupTo
  suffices hall : k = dir.files.length by rw [hnames, hall, List.take_length]
  by_contra hne
  have hlt : k < dir.files.length := by omega
  refine hupTo.next dir.nodup_files hlt (hsound.known n hn _ (hsettled _ ?_))
  rw [List.take_length]
  exact List.getElem_mem hlt

end Runs

end

/-! ## Two files -/

section Example

/-- `CREATE TABLE`: fails when the table is there. -/
def createTable (t : ℕ) (v : List ℕ) : Option (List ℕ) :=
  if t ∈ v then none else some (v ++ [t])

def twoTables : Directory ℕ where
  entries := [⟨"0002_two.sql".toList, [2, 3]⟩, ⟨"0001_one.sql".toList, [1]⟩,
    ⟨"README.md".toList, []⟩]
  nodup := by decide

/-- Both runs find nothing applied. The first one applies a file and crashes in the
next, the second one fails on the file that is already there, and a third one
applies the rest. -/
def threeRuns : List (Label Outcome Unit Empty) :=
  [.start (), .start ()] ++ List.replicate 3 (.run 0 .done) ++ List.replicate 3 (.run 1 .done) ++
  List.replicate 8 (.run 0 .done) ++ [.run 1 .done, .run 1 .done, .run 1 .done,
    .run 1 (.failed "relation exists"), .run 1 .done] ++
  List.replicate 2 (.run 0 .done) ++ [.crash 0, .start ()] ++ List.replicate 10 (.run 2 .done)

theorem migrations_apply_in_order_three : ∃ t : Runners ℕ (List ℕ),
    (∃ n ∈ t.nodes, Run.completed n = true) ∧
    t.world.applied = ["0001_one.sql".toList, "0002_two.sql".toList] := by
  have hrun : ((unapplied []).runWhile (device createTable) (fun _ => runMigrations twoTables)
      (fun _ _ => true) threeRuns).any (fun t => t.nodes.any Run.completed) = true := by
    decide +kernel
  obtain ⟨t, ht, hcompleted⟩ := Runs.exists_of_runWhile hrun
  obtain ⟨n, hn, hn'⟩ := List.any_eq_true.mp hcompleted
  refine ⟨t, ⟨n, hn, hn'⟩, ?_⟩
  have hall := (migrations_apply_in_order (ht.mono (fun _ _ _ => trivial))).2.2 n hn hn'
  rw [hall]
  decide +kernel

end Example

end PaymentApis.Migrations
