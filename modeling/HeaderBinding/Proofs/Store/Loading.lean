import HeaderBinding.Proofs.Json.Text
import HeaderBinding.Proofs.Store.Named
import HeaderBinding.Proofs.Store.Staged
import HeaderBinding.Store.Snapshot

namespace HeaderBinding

open Declaration (name category references)

namespace Snapshot

section

variable (α : Type) [DeclarationData α]

def Reads (j : Json) (a : α) : Prop :=
  DeclarationData.ofJson .tree j = .ok a ∧ Declaration.IsNamed a

inductive Excludes (j : Json) : String → Prop
  | undecodable {e : DecodeError} (h : (DeclarationData.ofJson .tree j : Decoded α) = .error e) :
    Excludes j (e.message?.getD "")
  | unnamed {a : α} (h : DeclarationData.ofJson .tree j = .ok a) (hname : name a = "") : Excludes j "missing name"
  | emptyReference {a : α} (h : DeclarationData.ofJson .tree j = .ok a) (hname : name a ≠ "")
    (hreference : ∃ r ∈ references a, r.name = "") : Excludes j "reference with an empty name"

structure Reports (i : Nat) (j : Json) (reason : String) (x : Diagnostic) : Prop where
  severity : x.severity = .error
  kind : x.kind = .malformedEntry
  subject : ∀ k, x.subject = some k ↔
    k.category = category α ∧ k.name ≠ "" ∧ j.get? "name" = some (.string k.name)
  message : x.message = (category α).text ++ " entry #" ++ toString i ++ " skipped: " ++ reason

inductive Sifts : Nat → List Json → List α → Diagnostics → Prop
  | nil (i : Nat) : Sifts i [] [] []
  | keep {i : Nat} {j : Json} {js : List Json} {a : α} {as : List α} {ds : Diagnostics} (h : Reads α j a)
    (hrest : Sifts (i + 1) js as ds) : Sifts i (j :: js) (a :: as) ds
  | exclude {i : Nat} {j : Json} {js : List Json} {reason : String} {x : Diagnostic} {as : List α} {ds : Diagnostics}
    (h : Excludes α j reason) (hx : Reports α i j reason x) (hrest : Sifts (i + 1) js as ds) :
    Sifts i (j :: js) as (x :: ds)

inductive PaddedBy : List Json → List Json → Prop
  | nil : PaddedBy [] []
  | entry (j : Json) {js ks : List Json} (h : PaddedBy js ks) : PaddedBy (j :: js) (j :: ks)
  | extra {j : Json} {reason : String} {js ks : List Json} (hj : Excludes α j reason) (h : PaddedBy js ks) :
    PaddedBy js (j :: ks)

variable {α} {j : Json}

theorem readEntry_cases (j : Json) :
    (∃ a : α, readEntry α j = .ok a ∧ Reads α j a) ∨
      ∃ fault, readEntry α j = .error fault ∧ Excludes α j fault.message := by
  cases hdecoded : (DeclarationData.ofJson .tree j : Decoded α) with
  | error e => exact .inr ⟨.undecodable e, by rw [readEntry, hdecoded], .undecodable hdecoded⟩
  | ok a =>
    unfold readEntry
    rw [hdecoded]
    dsimp only
    by_cases hname : name a = ""
    · exact .inr ⟨.unnamed, if_pos (by simp [hname]), .unnamed hdecoded hname⟩
    · rw [if_neg (by simpa using hname)]
      by_cases hreference : ∃ r ∈ references a, r.name = ""
      · exact .inr ⟨.emptyReference, if_pos (by simpa using hreference), .emptyReference hdecoded hname hreference⟩
      · exact .inl ⟨a, if_neg (by simpa using hreference), hdecoded, hname, fun r hr h => hreference ⟨r, hr, h⟩⟩

theorem reports_malformed (i : Nat) (j : Json) (fault : EntryFault) :
    Reports α i j fault.message (malformed α i j fault) := by
  refine ⟨rfl, rfl, fun ⟨c, n⟩ => ?_, rfl⟩
  change subjectOf? α j = _ ↔ _
  unfold subjectOf?
  split
  · next m hname =>
    rw [hname]
    by_cases hm : m = ""
    · rw [if_pos (by simp [hm])]
      exact ⟨nofun, fun ⟨_, hn, heq⟩ => absurd (Json.string.inj (Option.some.inj heq)) fun h => hn (h ▸ hm)⟩
    · rw [if_neg (by simpa using hm)]
      constructor
      · rintro ⟨rfl, rfl⟩
        exact ⟨rfl, hm, rfl⟩
      · rintro ⟨rfl, -, heq⟩
        cases heq
        rfl
  · next hname => exact ⟨nofun, fun ⟨_, _, heq⟩ => absurd heq (hname n)⟩

theorem sifts_readEntries (items : List Json) (i : Nat) :
    Sifts α i items (readEntries α i items).1 (readEntries α i items).2 := by
  induction items generalizing i with
  | nil => exact .nil i
  | cons j items ih =>
    rw [readEntries]
    rcases readEntry_cases (α := α) j with ⟨a, hread, ha⟩ | ⟨fault, hread, hfault⟩
    · rw [hread]
      exact .keep ha (ih (i + 1))
    · rw [hread]
      exact .exclude hfault (reports_malformed i j fault) (ih (i + 1))

end

def IsSnapshot (text : String) (p : Parts) : Prop :=
  ∃ j, Json.parse? text = some j ∧ parts j = .ok p

structure Parts.PaddedBy (p p' : Parts) : Prop where
  typedefs : Snapshot.PaddedBy Typedef p.typedefs p'.typedefs
  definitions : Snapshot.PaddedBy Definition p.definitions p'.definitions
  constants : Snapshot.PaddedBy Constant p.constants p'.constants
  procedures : Snapshot.PaddedBy Procedure p.procedures p'.procedures

end Snapshot

open Snapshot

def DeclarationSet.ReadFrom (d : DeclarationSet) (p : Parts) : Prop :=
  ∃ ds ds' ds'' ds''', Sifts Typedef 0 p.typedefs d.typedefs ds ∧ Sifts Definition 0 p.definitions d.definitions ds' ∧
    Sifts Constant 0 p.constants d.constants ds'' ∧ Sifts Procedure 0 p.procedures d.procedures ds''' ∧
    d.diagnostics = ds ++ ds' ++ ds'' ++ ds'''

def Snapshot.Parts.read (p : Parts) : DeclarationSet where
  typedefs := (readEntries Typedef 0 p.typedefs).1
  definitions := (readEntries Definition 0 p.definitions).1
  constants := (readEntries Constant 0 p.constants).1
  procedures := (readEntries Procedure 0 p.procedures).1
  diagnostics := (readEntries Typedef 0 p.typedefs).2 ++ (readEntries Definition 0 p.definitions).2 ++
    (readEntries Constant 0 p.constants).2 ++ (readEntries Procedure 0 p.procedures).2

theorem Snapshot.Parts.readFrom_read (p : Parts) : p.read.ReadFrom p :=
  ⟨_, _, _, _, sifts_readEntries _ 0, sifts_readEntries _ 0, sifts_readEntries _ 0, sifts_readEntries _ 0, rfl⟩

namespace Store

theorem run_forM_modify {α : Type} (add : Store → α → Store) (as : List α) (s : Store) :
    (as.forM fun a => (modify (add · a) : StateM Store PUnit)).run s = ((), as.foldl add s) := by
  induction as generalizing s with
  | nil => rfl
  | cons a as ih => exact ih (add s a)

theorem run_stageSection {α : Type} [DeclarationData α] (add : Store → α → Store) (items : List Json) (s : Store) :
    (stageSection add items).run s = ((readEntries α 0 items).2, (readEntries α 0 items).1.foldl add s) := by
  have hforM := run_forM_modify add (readEntries α 0 items).1 s
  unfold stageSection
  simp only [StateT.run_bind, hforM]
  rfl

theorem run_stageParts (p : Parts) (s : Store) : (stageParts p).run s = (p.read.diagnostics, p.read.stage s) := by
  unfold stageParts
  simp only [StateT.run_bind, run_stageSection]
  rfl

def loaded (s : Store) (p : Parts) : Store × Diagnostics :=
  ((p.read.stage (s.setFastLoad true)).commit.1.setFastLoad s.fastLoad,
    p.read.diagnostics ++ (p.read.stage (s.setFastLoad true)).commit.2.diagnostics)

theorem run_loadParts (p : Parts) (s : Store) : (loadParts p).run s = ((s.loaded p).2, (s.loaded p).1) := by
  unfold loadParts
  simp only [StateT.run_bind, run_stageParts]
  rfl

theorem run_loadInPlace_of_isSnapshot {text : String} {p : Parts} (h : IsSnapshot text p) (s : Store) :
    (loadInPlace text).run.run s = (.ok (s.loaded p).2, (s.loaded p).1) := by
  obtain ⟨j, hparse, hparts⟩ := h
  unfold loadInPlace
  rw [hparse]
  dsimp only
  rw [hparts]
  exact congrArg (Prod.map Except.ok id) (run_loadParts p s)

theorem run_loadInPlace_cases (text : String) (s : Store) :
    (∃ e, (loadInPlace text).run.run s = (.error e, s)) ∨ ∃ p, IsSnapshot text p := by
  cases hparse : Json.parse? text with
  | none =>
    unfold loadInPlace
    rw [hparse]
    exact .inl ⟨.notJson, rfl⟩
  | some j =>
    cases hparts : Snapshot.parts j with
    | error e =>
      unfold loadInPlace
      rw [hparse]
      dsimp only
      rw [hparts]
      exact .inl ⟨e, rfl⟩
    | ok p => exact .inr ⟨p, j, hparse, hparts⟩

theorem load_of_isSnapshot {text : String} {p : Parts} (h : IsSnapshot text p) (s : Store) :
    s.load text = .ok (s.loaded p) := by
  rw [load, run_loadInPlace_of_isSnapshot h]

@[simp] theorem fastLoad_setFastLoad (s : Store) (on : Bool) : (s.setFastLoad on).fastLoad = on := by
  unfold setFastLoad
  split
  · assumption
  · rfl

theorem stage_congr {s t : Store} (h : s.SameEntries t) (d : DeclarationSet) : (d.stage s).SameEntries (d.stage t) := by
  rw [d.stage_eq, d.stage_eq]
  constructor
  · exact h.typedefs
  · exact h.definitions
  · exact h.constants
  · exact h.procedures
  · simp only [Staging.toList_foldl_push, h.stagedTypedefs]
  · simp only [Staging.toList_foldl_push, h.stagedDefinitions]
  · simp only [Staging.toList_foldl_push, h.stagedConstants]
  · simp only [Staging.toList_foldl_push, h.stagedProcedures]

structure LoadsTo (s : Store) (p : Parts) (d : DeclarationSet) (t : Store) (ds : Diagnostics) : Prop where
  read : d.ReadFrom p
  mode : t.fastLoad = s.fastLoad
  sound : t.Sound
  entries : t.SameEntries (d.stage s).commit.1
  diagnostics : ds = d.diagnostics ++ (d.stage s).commit.2.diagnostics

theorem loadsTo_loaded {s : Store} (hs : s.Sound) (p : Parts) : s.LoadsTo p p.read (s.loaded p).1 (s.loaded p).2 := by
  have hfast := sound_setFastLoad hs true
  obtain ⟨hentries, hreport⟩ := commit_congr (sound_stage hfast p.read) (sound_stage hs p.read)
    (stage_congr (sameEntries_setFastLoad (.refl s) true) p.read)
  rw [loaded]
  constructor
  · exact p.readFrom_read
  · exact fastLoad_setFastLoad _ _
  · exact sound_setFastLoad (sound_commit (sound_stage hfast p.read)) _
  · exact sameEntries_setFastLoad hentries _
  · rw [hreport]

def unreadable : Json :=
  .object [("name", .string "B"), ("value", .bool true)]

end Store

end HeaderBinding
