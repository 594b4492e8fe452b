import HeaderBinding.Proofs.Store.Indexed
import HeaderBinding.Store.Basic
import Mathlib.Data.List.Count

namespace HeaderBinding

open Declaration (name category sameContent)

namespace Staging

variable {α : Type} [Declaration α] {s : Staging α} {counting : Bool}

def occurrences (entries : List α) (n : String) : Option Nat :=
  if (entries.map name).count n = 0 then none else some ((entries.map name).count n)

theorem occurrences_concat (entries : List α) (a : α) (n : String) :
    occurrences (entries ++ [a]) n =
      if name a = n then some ((occurrences entries n).getD 0 + 1) else occurrences entries n := by
  by_cases h : name a = n
  · subst h
    by_cases hc : (entries.map name).count (name a) = 0
    · simp [occurrences, hc]
    · simp [occurrences, hc]
  · simp [occurrences, h]

theorem occurrences_getD_one (entries : List α) {a : α} (ha : a ∈ entries) :
    (occurrences entries (name a)).getD 1 = (entries.map name).count (name a) := by
  have hpos : 0 < (entries.map name).count (name a) :=
    List.count_pos_iff.mpr (List.mem_map_of_mem ha)
  rw [occurrences, if_neg (by omega), Option.getD_some]

theorem getElem?_increment (counts : Std.HashMap String Nat) (m n : String) :
    (increment counts m)[n]? = if m = n then some (counts[n]?.getD 0 + 1) else counts[n]? := by
  rw [increment, Std.HashMap.getElem?_insert, Std.HashMap.getD_eq_getD_getElem?]
  by_cases h : m = n
  · simp [h]
  · simp [h]

theorem getElem?_countsOf (entries : List α) (n : String) :
    (countsOf entries)[n]? = occurrences entries n := by
  induction entries using List.reverseRecOn with
  | nil => simp [countsOf, occurrences]
  | append_singleton entries a ih =>
    have hstep : countsOf (entries ++ [a]) = increment (countsOf entries) (name a) := by
      simp [countsOf]
    rw [hstep, getElem?_increment, occurrences_concat, ih]

structure Counted (counting : Bool) (s : Staging α) : Prop where
  indexed_eq : s.indexed = counting
  counts_eq : counting = true → ∀ n, s.counts[n]? = occurrences s.toList n

theorem counted_empty : (empty : Staging α).Counted true :=
  ⟨rfl, fun _ n => by simp [empty, toList, occurrences]⟩

omit [Declaration α] in
@[simp] theorem toList_clear (s : Staging α) : s.clear.toList = [] := rfl

omit [Declaration α] in
@[simp] theorem length_toList (s : Staging α) : s.toList.length = s.entries.size := rfl

@[simp] theorem toList_push (counting : Bool) (s : Staging α) (a : α) :
    (s.push counting a).toList = s.toList ++ [a] := by
  simp [toList, push]

namespace Counted

theorem push (h : s.Counted counting) (a : α) : (s.push counting a).Counted counting := by
  refine ⟨h.indexed_eq, fun hc n => ?_⟩
  subst hc
  rw [toList_push, occurrences_concat, ← h.counts_eq rfl n]
  exact getElem?_increment s.counts (name a) n

theorem setIndexed (h : s.Counted counting) (indexed : Bool) :
    (s.setIndexed indexed).Counted indexed := by
  refine ⟨rfl, fun hi n => ?_⟩
  subst hi
  cases counting with
  | true => simp [Staging.setIndexed, h.indexed_eq, h.counts_eq rfl n, toList]
  | false => simp [Staging.setIndexed, h.indexed_eq, getElem?_countsOf, toList]

theorem clear (h : s.Counted counting) : s.clear.Counted counting :=
  ⟨h.indexed_eq, fun _ n => by simp [Staging.clear, toList, occurrences]⟩

theorem getElem?_tally (h : s.Counted counting) (n : String) :
    s.tally[n]? = occurrences s.toList n := by
  cases counting with
  | true => simp [tally, h.indexed_eq, h.counts_eq rfl n]
  | false => simp [tally, h.indexed_eq, getElem?_countsOf]

end Counted

end Staging

namespace CommitReport

theorem append_assoc (r s u : CommitReport) : (r.append s).append u = r.append (s.append u) := by
  simp only [append, Nat.add_assoc, List.append_assoc]

theorem empty_append (r : CommitReport) : empty.append r = r := by
  simp [append, empty]

end CommitReport

namespace Store

variable {α : Type} [Declaration α]

theorem toList_added (fast : Bool) (t : Table α) (a : α) :
    (if fast then t.push a else t.insert a).toList = t.toList ++ [a] := by
  cases fast <;> simp

theorem get?_added (fast : Bool) (t : Table α) {a : α} {n : String} (h : name a ≠ n) :
    (if fast then t.push a else t.insert a).get? n = t.get? n := by
  cases fast
  · exact Table.get?_insert_of_ne t h
  · exact Table.get?_push_of_ne t h

section

def firsts (entries : List α) : List α :=
  entries.eraseDupsBy fun a b => name a == name b

theorem firsts_cons (a : α) (entries : List α) :
    firsts (a :: entries) = a :: firsts (entries.filter (name · ≠ name a)) := by
  have hfilter : (entries.filter fun b => decide ((name b == name a) = false)) = entries.filter (name · ≠ name a) :=
    List.filter_congr fun b _ => by simp
  rw [firsts, List.eraseDupsBy_cons, hfilter]
  rfl

def times (staged : List α) (n : String) : Nat :=
  (staged.map name).count n

variable (held staged : List α)

def IsMoved (a : α) : Prop :=
  times staged (name a) = 1 ∧ ∀ b ∈ held, name b ≠ name a

instance (a : α) : Decidable (IsMoved held staged a) :=
  inferInstanceAs (Decidable (_ ∧ _))

def moved : List α :=
  staged.filter (IsMoved held staged ·)

def clash (a : α) : Diagnostic :=
  ⟨.error, .duplicateDeclaration, some ⟨category α, name a⟩, (category α).text ++ " '" ++ name a ++
    "' conflicts with the committed declaration; keeping the committed one"⟩

def finding? (a : α) : Option Diagnostic :=
  if 1 < times staged (name a) then
    some ⟨.error, .duplicateDeclaration, some ⟨category α, name a⟩, (category α).text ++ " '" ++ name a ++
      "' staged " ++ toString (times staged (name a)) ++ " times; none committed"⟩
  else if ∃ b ∈ held, name b = name a ∧ sameContent b a = false then some (clash a)
  else none

def findings : Diagnostics :=
  (firsts staged).filterMap (finding? held staged)

def reportOn (reported : List String) (entries : List α) : CommitReport :=
  ⟨(entries.filter (IsMoved held staged ·)).length, (entries.filter (¬IsMoved held staged ·)).length,
    (firsts (entries.filter (name · ∉ reported))).filterMap (finding? held staged)⟩

variable {held staged} {a : α} {rest : List α} {reported : List String}

theorem not_isMoved_of_repeated (htimes : 1 < times staged (name a)) : ¬IsMoved held staged a :=
  fun h => Nat.ne_of_gt htimes h.1

theorem filter_unreported (hfirst : name a ∉ reported) :
    (a :: rest).filter (name · ∉ reported) = a :: rest.filter (name · ∉ reported) :=
  List.filter_cons_of_pos (by simpa using hfirst)

theorem reportOn_reported (htimes : 1 < times staged (name a)) (hreported : name a ∈ reported) :
    reportOn held staged reported (a :: rest) = .append ⟨0, 1, []⟩ (reportOn held staged reported rest) := by
  have hmoved : ¬IsMoved held staged a := not_isMoved_of_repeated htimes
  simp [reportOn, CommitReport.append, hmoved, hreported, Nat.add_comm]

theorem reportOn_repeated (htimes : 1 < times staged (name a)) (hfirst : name a ∉ reported) :
    reportOn held staged reported (a :: rest) =
      .append ⟨0, 1, [stagedTwice a (times staged (name a))]⟩ (reportOn held staged (name a :: reported) rest) := by
  have hmoved : ¬IsMoved held staged a := not_isMoved_of_repeated htimes
  have hfinding : finding? held staged a = some (stagedTwice a (times staged (name a))) := if_pos htimes
  have hrest : (rest.filter (name · ∉ reported)).filter (name · ≠ name a) =
      rest.filter (name · ∉ name a :: reported) := by
    rw [List.filter_filter]
    exact List.filter_congr fun b _ => by simp
  rw [reportOn, filter_unreported hfirst, firsts_cons, hrest, List.filterMap_cons, hfinding]
  simp [reportOn, CommitReport.append, hmoved, Nat.add_comm]

theorem reportOn_once (hfirst : name a ∉ reported) (hdistinct : ∀ b ∈ rest, name a ≠ name b) :
    reportOn held staged reported (a :: rest) =
      .append ⟨if IsMoved held staged a then 1 else 0, if IsMoved held staged a then 0 else 1,
        (finding? held staged a).toList⟩ (reportOn held staged reported rest) := by
  have hrest : (rest.filter (name · ∉ reported)).filter (name · ≠ name a) = rest.filter (name · ∉ reported) :=
    List.filter_eq_self.mpr fun b hb => by simpa using (hdistinct b (List.mem_of_mem_filter hb)).symm
  rw [reportOn, filter_unreported hfirst, firsts_cons, hrest, List.filterMap_cons]
  by_cases hmoved : IsMoved held staged a
  · cases finding? held staged a <;> simp [reportOn, CommitReport.append, hmoved, Nat.add_comm]
  · cases finding? held staged a <;> simp [reportOn, CommitReport.append, hmoved, Nat.add_comm]

theorem ne_of_once (hsub : (a :: rest).Sublist staged) (honce : ¬1 < times staged (name a)) :
    ∀ b ∈ rest, name a ≠ name b := by
  intro b hb heq
  refine honce ?_
  have htwo : [name a, name b].Sublist (staged.map name) :=
    ((List.singleton_sublist.mpr hb).cons_cons a |>.trans hsub).map name
  have hcount := htwo.count_le (name a)
  rw [← heq, List.count_cons_self, List.count_cons_self] at hcount
  exact Nat.lt_of_lt_of_le (by omega) hcount

theorem times_pos (ha : a ∈ staged) : 0 < times staged (name a) :=
  List.count_pos_iff.mpr (List.mem_map_of_mem ha)

theorem finding?_moved (hmoved : IsMoved held staged a) : finding? held staged a = none := by
  rw [finding?, if_neg (Nat.not_lt.mpr (Nat.le_of_eq hmoved.1)), if_neg]
  rintro ⟨b, hb, hname, -⟩
  exact hmoved.2 b hb hname

theorem finding?_held {t : Table α} (honce : ¬1 < times staged (name a)) {b : α} (hb : t.get? (name a) = some b)
    (hget : ∀ b, t.get? (name a) = some b ↔ b ∈ held ∧ name b = name a) :
    finding? held staged a = if sameContent b a then none else some (clash a) := by
  have hiff : (∃ c ∈ held, name c = name a ∧ sameContent c a = false) ↔ sameContent b a = false := by
    constructor
    · rintro ⟨c, hc, hname, hsame⟩
      cases hb.symm.trans ((hget c).mpr ⟨hc, hname⟩)
      exact hsame
    · intro hsame
      obtain ⟨hmem, hname⟩ := (hget b).mp hb
      exact ⟨b, hmem, hname, hsame⟩
  rw [finding?, if_neg honce]
  simp only [hiff]
  cases sameContent b a <;> rfl

theorem commitEntries_eq (fast : Bool) {counts : Std.HashMap String Nat} {entries : List α}
    (hsub : entries.Sublist staged) (hcounts : ∀ a ∈ entries, counts.getD (name a) 1 = times staged (name a))
    (hreported : ∀ n ∈ reported, 1 < times staged n) {t : Table α}
    (hget : ∀ a ∈ entries, ¬1 < times staged (name a) →
      ∀ b, t.get? (name a) = some b ↔ b ∈ held ∧ name b = name a) (report : CommitReport) :
    (commitEntries fast counts reported t report entries).1.toList =
        t.toList ++ entries.filter (IsMoved held staged ·) ∧
      (commitEntries fast counts reported t report entries).2 =
        report.append (reportOn held staged reported entries) := by
  -- By induction on what is left to commit; `held` and `staged` stay what they were before the first entry.
  induction entries generalizing reported t report with
  | nil => exact ⟨(List.append_nil _).symm, by simp [commitEntries, reportOn, firsts, CommitReport.append]⟩
  | cons a rest ih =>
    obtain ⟨hcount, hcounts⟩ := List.forall_mem_cons.mp hcounts
    obtain ⟨hgeta, hget⟩ := List.forall_mem_cons.mp hget
    have ih {reported} := @ih reported (List.sublist_of_cons_sublist hsub) hcounts
    rw [commitEntries, hcount]
    by_cases htimes : 1 < times staged (name a)
    · rw [if_pos htimes, List.filter_cons_of_neg (by simpa using not_isMoved_of_repeated htimes)]
      by_cases hfirst : name a ∈ reported
      · rw [if_pos (by simpa using hfirst), reportOn_reported htimes hfirst, ← CommitReport.append_assoc]
        obtain ⟨hlist, hreport⟩ := ih hreported hget { report with skipped := report.skipped + 1 }
        refine ⟨hlist, hreport.trans ?_⟩
        simp [CommitReport.append]
      · rw [if_neg (by simpa using hfirst), reportOn_repeated htimes hfirst, ← CommitReport.append_assoc]
        exact ih (List.forall_mem_cons.mpr ⟨htimes, hreported⟩) hget _
    · have hdistinct := ne_of_once hsub htimes
      have hfirst : name a ∉ reported := fun h => htimes (hreported _ h)
      have honce : times staged (name a) = 1 := by
        have := times_pos (hsub.subset (List.mem_cons_self ..))
        omega
      have hgeta := hgeta htimes
      rw [if_neg htimes, reportOn_once hfirst hdistinct, ← CommitReport.append_assoc]
      cases hheld : t.get? (name a) with
      | some b =>
        obtain ⟨hb, hname⟩ := (hgeta b).mp hheld
        have hmoved : ¬IsMoved held staged a := fun h => h.2 b hb hname
        rw [List.filter_cons_of_neg (by simpa using hmoved), if_neg hmoved, if_neg hmoved,
          finding?_held htimes hheld hgeta, apply_ite Option.toList]
        exact ih hreported hget _
      | none =>
        have hmoved : IsMoved held staged a :=
          ⟨honce, fun b hb hname => by cases hheld.symm.trans ((hgeta b).mpr ⟨hb, hname⟩)⟩
        have hkept : ∀ b ∈ rest, (if fast then t.push a else t.insert a).get? (name b) = t.get? (name b) :=
          fun b hb => get?_added fast t (hdistinct b hb)
        obtain ⟨hentries, hreport⟩ := ih (t := if fast then t.push a else t.insert a) hreported
          (fun b hb => by rw [hkept b hb]; exact hget b hb) { report with committed := report.committed + 1 }
        rw [List.filter_cons_of_pos (by simpa using hmoved), if_pos hmoved, if_pos hmoved, finding?_moved hmoved]
        refine ⟨?_, hreport.trans ?_⟩
        · rw [hentries, toList_added, List.append_assoc]
          rfl
        · simp [CommitReport.append]

theorem commitTable_eq (fast : Bool) {counting : Bool} {t : Table α} {s : Staging α} (ht : t.Indexed)
    (hs : s.Counted counting) :
    (commitTable fast t s).1.toList = t.toList ++ moved t.toList s.toList ∧
      (commitTable fast t s).2.2 = ⟨(moved t.toList s.toList).length,
        (s.toList.filter (¬IsMoved t.toList s.toList ·)).length, findings t.toList s.toList⟩ := by
  have hcounts : ∀ a ∈ s.toList, s.tally.getD (name a) 1 = times s.toList (name a) := by
    intro a ha
    rw [Std.HashMap.getD_eq_getD_getElem?, hs.getElem?_tally, Staging.occurrences_getD_one s.toList ha, times]
  obtain ⟨hlist, hreport⟩ := commitEntries_eq fast (.refl _) hcounts (List.forall_mem_nil _)
    (fun a _ _ _ => ht.get?_eq_some_iff) .empty
  refine ⟨?_, hreport.trans ?_⟩
  · rw [moved, ← hlist]
    cases fast <;> rfl
  · simp [CommitReport.empty_append, reportOn, moved, findings]

end

theorem indexed_commitEntries (counts : Std.HashMap String Nat) (entries : List α)
    (reported : List String) {t : Table α} (report : CommitReport) (h : t.Indexed) :
    (commitEntries false counts reported t report entries).1.Indexed := by
  induction entries generalizing reported t report with
  | nil => exact h
  | cons a rest ih =>
    simp only [commitEntries]
    split
    · split
      · exact ih _ _ h
      · exact ih _ _ h
    · split
      · exact ih _ _ h
      · rename_i hn
        exact ih _ _ (h.insert hn)

section

variable {fast fast' : Bool} {t t' : Table α} {s s' : Staging α}

theorem commitTable_congr (ht : t.Indexed) (ht' : t'.Indexed) (hs : s.Counted (!fast))
    (hs' : s'.Counted (!fast')) (hlist : t.toList = t'.toList) (hstaged : s.toList = s'.toList) :
    (commitTable fast t s).1.toList = (commitTable fast' t' s').1.toList ∧
      (commitTable fast t s).2.2 = (commitTable fast' t' s').2.2 := by
  obtain ⟨hentries, hreport⟩ := commitTable_eq fast ht hs
  obtain ⟨hentries', hreport'⟩ := commitTable_eq fast' ht' hs'
  rw [hentries, hreport, hentries', hreport', hlist, hstaged]
  exact ⟨rfl, rfl⟩

theorem indexed_commitTable (ht : t.Indexed) (hs : s.Counted (!fast)) :
    (commitTable fast t s).1.Indexed := by
  have hkept := indexed_commitEntries s.tally s.toList [] .empty ht
  cases fast with
  | false => exact hkept
  | true =>
    refine Table.indexed_reindex ?_
    have hsame := (commitTable_eq true ht hs).1.trans (commitTable_eq false ht hs).1.symm
    exact hsame ▸ hkept.nodup

end

end Store

end HeaderBinding
