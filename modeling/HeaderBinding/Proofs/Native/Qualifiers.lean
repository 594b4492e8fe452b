import HeaderBinding.Native.Data
import Mathlib.Data.List.TakeWhile

namespace HeaderBinding

namespace Text

theorem trimList_append {before w after : List Char} (hbefore : ∀ c ∈ before, isBlank c = true)
    (hafter : ∀ c ∈ after, isBlank c = true) (hw : ∀ c ∈ w, isBlank c = false) (hne : w ≠ []) :
    trimList (before ++ w ++ after) = w := by
  have hfront : (before ++ w ++ after).dropWhile isBlank = w ++ after := by
    obtain ⟨c, w, rfl⟩ := List.exists_cons_of_ne_nil hne
    rw [List.append_assoc, List.dropWhile_append_of_pos hbefore]
    simp [hw c (List.mem_cons_self ..)]
  have hback : (w ++ after).reverse.dropWhile isBlank = w.reverse := by
    obtain ⟨c, v, hv⟩ := List.exists_cons_of_ne_nil (List.reverse_ne_nil_iff.mpr hne)
    have hc : c ∈ w := List.mem_reverse.mp (hv ▸ List.mem_cons_self ..)
    rw [List.reverse_append, List.dropWhile_append_of_pos (by simpa using hafter), hv]
    simp [hw c hc]
  rw [trimList, hfront, hback, List.reverse_reverse]

theorem trimList_ne_nil {cs : List Char} {c : Char} (hc : c ∈ cs) (hblank : isBlank c = false) :
    trimList cs ≠ [] := by
  intro h
  rw [trimList, List.reverse_eq_nil_iff, List.dropWhile_eq_nil_iff] at h
  have hall : ∀ d ∈ cs.dropWhile isBlank, isBlank d = true := fun d hd => h d (List.mem_reverse.mpr hd)
  rw [← List.takeWhile_append_dropWhile (p := isBlank) (l := cs), List.mem_append] at hc
  rcases hc with hc | hc
  · have := List.mem_takeWhile_imp hc
    simp_all
  · have := hall c hc
    simp_all

end Text

namespace Qualifiers

structure IsWord (w : List Char) : Prop where
  ne_nil : w ≠ []
  noBar : '|' ∉ w
  noBlank : ∀ c ∈ w, Text.isBlank c = false

theorem isWord_of_all {w : List Char} (hne : w ≠ []) (h : w.all (fun c => c != '|' && !Text.isBlank c) = true) :
    IsWord w := by
  have hchars : ∀ c ∈ w, c ≠ '|' ∧ Text.isBlank c = false := by simpa using h
  exact ⟨hne, fun h => (hchars _ h).1 rfl, fun c hc => (hchars c hc).2⟩

theorem pieces_append {w : List Char} (hw : '|' ∉ w) (piece rest : List Char) :
    pieces piece (w ++ rest) = pieces (w.reverse ++ piece) rest := by
  induction w generalizing piece with
  | nil => rfl
  | cons c w ih =>
    rw [List.mem_cons, not_or] at hw
    simp [pieces, Ne.symm hw.1, ih hw.2]

theorem pieces_bar {w : List Char} (hw : '|' ∉ w) (piece rest : List Char) :
    pieces piece (w ++ '|' :: rest) = (piece.reverse ++ w) :: pieces [] rest := by
  simp [pieces_append hw, pieces]

theorem pieces_last {w : List Char} (hw : '|' ∉ w) (piece : List Char) :
    pieces piece w = [piece.reverse ++ w] := by
  have happend := pieces_append hw piece []
  rw [List.append_nil] at happend
  simp [happend, pieces]

theorem map_trimList_pieces {ws : List (List Char)} (hws : ∀ w ∈ ws, IsWord w) (hne : ws ≠ [])
    {piece : List Char} (hpiece : ∀ c ∈ piece, Text.isBlank c = true) :
    (pieces piece (" | ".toList.intercalate ws)).map Text.trimList = ws := by
  induction ws generalizing piece with
  | nil => exact (hne rfl).elim
  | cons w rest ih =>
    have hw := hws w (List.mem_cons_self ..)
    have hblank : ∀ c ∈ piece.reverse, Text.isBlank c = true := by simpa using hpiece
    cases rest with
    | nil =>
      have htrim : Text.trimList (piece.reverse ++ w) = w := by
        simpa using Text.trimList_append hblank (List.forall_mem_nil _) hw.noBlank hw.ne_nil
      simp [List.intercalate, pieces_last hw.noBar, htrim]
    | cons v rest =>
      have htext : " | ".toList.intercalate (w :: v :: rest) =
          (w ++ [' ']) ++ '|' :: (' ' :: " | ".toList.intercalate (v :: rest)) := by
        simp [List.intercalate]
      have hbar : '|' ∉ w ++ [' '] := by simpa using hw.noBar
      have hspace : ∀ c ∈ [' '], Text.isBlank c = true := List.forall_mem_singleton.mpr rfl
      have hrest := ih (fun u hu => hws u (List.mem_cons_of_mem w hu)) (List.cons_ne_nil v rest) hspace
      have htrim := Text.trimList_append hblank hspace hw.noBlank hw.ne_nil
      rw [List.append_assoc] at htrim
      rw [htext, pieces_bar hbar, List.map_cons, htrim, pieces, if_neg (by decide), hrest]

def addFlag (q : Qualifiers) (w : List Char) : Except Json.FlagFault Qualifiers := do
  let f ← flag w
  pure ⟨q.bits ||| f.bits⟩

theorem ofText_intercalate {ws : List String} (hws : ∀ w ∈ ws, IsWord w.toList) (hne : ws ≠ []) :
    ofText (" | ".intercalate ws) = (ws.map String.toList).foldlM addFlag empty := by
  have hwords : ∀ w ∈ ws.map String.toList, IsWord w := by simpa using hws
  have htext : (" | ".intercalate ws).toList = " | ".toList.intercalate (ws.map String.toList) := by
    simp
  have hfull : Text.trimList (" | ".intercalate ws).toList ≠ [] := by
    obtain ⟨w, rest, rfl⟩ := List.exists_cons_of_ne_nil hne
    have hw := hws w (List.mem_cons_self ..)
    obtain ⟨c, cs, hc⟩ := List.exists_cons_of_ne_nil hw.ne_nil
    have hmem : c ∈ w.toList := hc ▸ List.mem_cons_self ..
    refine Text.trimList_ne_nil ?_ (hw.noBlank c hmem)
    rw [htext]
    cases rest <;> simp [List.intercalate, hmem]
  have hpieces : ((pieces [] (" | ".intercalate ws).toList).map Text.trimList) = ws.map String.toList := by
    rw [htext]
    exact map_trimList_pieces hwords (by simpa using hne) nofun
  rw [ofText, if_neg (by simpa using hfull), ← hpieces, List.foldlM_map]
  rfl

theorem hexValue?_digitChar : ∀ d < 16, Json.hexValue? d.digitChar = some d := by
  decide

theorem plain_digitChar : ∀ d < 16, d.digitChar ≠ '+' ∧ d.digitChar ≠ '|' ∧ Text.isBlank d.digitChar = false := by
  decide

theorem exists_digitChar {n : Nat} {c : Char} (h : c ∈ Nat.toDigits 16 n) : ∃ d < 16, c = d.digitChar := by
  induction n using Nat.strong_induction_on with
  | _ n ih =>
    rcases Nat.lt_or_ge n 16 with hn | hn
    · rw [Nat.toDigits_of_lt_base hn, List.mem_singleton] at h
      exact ⟨n, hn, h⟩
    · rw [Nat.toDigits_of_base_le (by decide) hn, List.mem_append, List.mem_singleton] at h
      rcases h with h | h
      · exact ih (n / 16) (by omega) h
      · exact ⟨n % 16, Nat.mod_lt n (by decide), h⟩

theorem plain_of_mem_toDigits {n : Nat} {c : Char} (h : c ∈ Nat.toDigits 16 n) :
    c ≠ '+' ∧ c ≠ '|' ∧ Text.isBlank c = false := by
  obtain ⟨d, hd, rfl⟩ := exists_digitChar h
  exact plain_digitChar d hd

theorem foldlM_toDigits (n : Nat) :
    (Nat.toDigits 16 n).foldlM (fun n c => (Json.hexValue? c).map (n * 16 + ·)) 0 = some n := by
  induction n using Nat.strong_induction_on with
  | _ n ih =>
    rcases Nat.lt_or_ge n 16 with hn | hn
    · rw [Nat.toDigits_of_lt_base hn]
      simp [hexValue?_digitChar n hn]
    · have hvalue := hexValue?_digitChar (n % 16) (Nat.mod_lt n (by decide))
      rw [Nat.toDigits_of_base_le (by decide) hn, List.foldlM_append, ih (n / 16) (by omega)]
      simp [hvalue, Nat.div_add_mod']

theorem isWord_hex (n : Nat) : IsWord ('0' :: 'x' :: Nat.toDigits 16 n) := by
  refine isWord_of_all nofun ?_
  have hall : (Nat.toDigits 16 n).all (fun c => c != '|' && !Text.isBlank c) = true := by
    rw [List.all_eq_true]
    intro c hc
    obtain ⟨-, hbar, hblank⟩ := plain_of_mem_toDigits hc
    simp [hbar, hblank]
  rw [List.all_cons, List.all_cons, hall]
  rfl

theorem flag_hex {n : Nat} (hn : n < 256) : flag ('0' :: 'x' :: Nat.toDigits 16 n) = .ok ⟨UInt8.ofNat n⟩ := by
  have hplus : (Nat.toDigits 16 n).head? ≠ some '+' := by
    intro h
    exact (plain_of_mem_toDigits (List.mem_of_head? h)).1 rfl
  have hhex : flag.hex? (Nat.toDigits 16 n) = some n := by
    rw [flag.hex?, if_neg (by simp [Nat.toDigits_ne_nil])]
    exact foldlM_toDigits n
  rw [flag]
  simp only [if_neg hplus, hhex, if_pos hn]

def flags (q : Qualifiers) : List (String × UInt8) :=
  (if q.has .const then [("CONST", 1)] else []) ++ (if q.has .volatile then [("VOLATILE", 2)] else []) ++
    (if q.bits &&& 0xFC = 0 then []
      else [("0x" ++ Text.hexDigits (q.bits &&& 0xFC).toNat, q.bits &&& 0xFC)])

theorem names_eq (q : Qualifiers) : q.names = q.flags.map Prod.fst := by
  unfold names flags
  split_ifs <;> rfl

theorem isWord_flags (q : Qualifiers) : ∀ x ∈ q.flags, IsWord x.1.toList ∧ flag x.1.toList = .ok ⟨x.2⟩ := by
  intro x hx
  rw [flags, List.mem_append, List.mem_append] at hx
  rcases hx with (hx | hx) | hx
  · split at hx
    · rw [List.mem_singleton.mp hx]
      exact ⟨isWord_of_all (by decide) rfl, rfl⟩
    · cases hx
  · split at hx
    · rw [List.mem_singleton.mp hx]
      exact ⟨isWord_of_all (by decide) rfl, rfl⟩
    · cases hx
  · split at hx
    · cases hx
    · rw [List.mem_singleton.mp hx]
      have htext : ("0x" ++ Text.hexDigits (q.bits &&& 0xFC).toNat).toList =
          '0' :: 'x' :: Nat.toDigits 16 (q.bits &&& 0xFC).toNat := by
        simp [Text.hexDigits]
      have hflag := flag_hex (q.bits &&& 0xFC).toNat_lt
      rw [UInt8.ofNat_toNat] at hflag
      rw [htext]
      exact ⟨isWord_hex _, hflag⟩

theorem foldl_flags (q : Qualifiers) : q.flags.foldl (fun b x => b ||| x.2) 0 = q.bits := by
  have hbits : ∀ n : Fin 256, (if UInt8.ofFin n &&& 1 == 1 then 1 else 0) |||
      (if UInt8.ofFin n &&& 2 == 2 then 2 else 0) ||| (UInt8.ofFin n &&& 0xFC) = UInt8.ofFin n := by
    decide +kernel
  have h := hbits q.bits.toFin
  rw [UInt8.ofFin_toFin] at h
  unfold flags has const volatile
  split_ifs at h ⊢ <;> simp_all

theorem foldlM_addFlag {fs : List (String × UInt8)} (h : ∀ x ∈ fs, flag x.1.toList = .ok ⟨x.2⟩) (b : UInt8) :
    ((fs.map Prod.fst).map String.toList).foldlM addFlag ⟨b⟩ = .ok ⟨fs.foldl (fun b x => b ||| x.2) b⟩ := by
  induction fs generalizing b with
  | nil => rfl
  | cons x rest ih =>
    obtain ⟨hx, hrest⟩ := List.forall_mem_cons.mp h
    rw [List.map_cons, List.map_cons, List.foldlM_cons, addFlag, hx]
    exact ih hrest (b ||| x.2)

theorem ofText_text {q : Qualifiers} (hq : q.bits ≠ 0) : ofText q.text = .ok q := by
  have hflags := isWord_flags q
  have hne : q.flags ≠ [] := by
    intro h
    have hfold := foldl_flags q
    rw [h] at hfold
    exact hq hfold.symm
  have hwords : ∀ w ∈ q.flags.map Prod.fst, IsWord w.toList :=
    List.forall_mem_map.mpr fun x hx => (hflags x hx).1
  rw [text, names_eq, ofText_intercalate hwords (by simpa using hne), empty,
    foldlM_addFlag fun x hx => (hflags x hx).2]
  rw [foldl_flags]

end Qualifiers

end HeaderBinding
