import RaftStorage.Rpc.Config
import Mathlib.Data.List.Infix

/-! The readers of the cluster configuration find the nodes whose addresses were written, whatever the
layout of the file. -/

namespace RaftStorage
open Library

/-! ## Trimming -/

namespace MprpcConfig

structure Tight (w : List Char) : Prop where
  front : ∃ c rest, w = c :: rest ∧ c ≠ ' '
  back : ∃ rest c, w = rest ++ [c] ∧ c ≠ ' '

theorem notMem_spaces {c : Char} (hc : c ≠ ' ') (k : ℕ) : c ∉ spaces k :=
  fun h => hc (List.eq_of_mem_replicate h)

theorem dropWhile_spaces (k : ℕ) {c : Char} (hc : c ≠ ' ') (rest : List Char) :
    (spaces k ++ c :: rest).dropWhile (· = ' ') = c :: rest := by
  rw [spaces, List.dropWhile_append_of_pos (by simp)]
  exact List.dropWhile_cons_of_neg (by simpa using hc)

theorem rdropWhile_spaces (k : ℕ) {c : Char} (hc : c ≠ ' ') (rest : List Char) :
    (rest ++ [c] ++ spaces k).rdropWhile (· = ' ') = rest ++ [c] := by
  have hreverse : (rest ++ [c] ++ spaces k).reverse = spaces k ++ c :: rest.reverse := by
    simp [spaces]
  rw [List.rdropWhile, hreverse, dropWhile_spaces k hc]
  simp

theorem not_all_spaces (before : List Char) {after : List Char} {c : Char} (hc : c ≠ ' ') :
    ¬(before ++ c :: after).all (· = ' ') = true := by
  simp [hc]

theorem head?_trim (k : ℕ) {c : Char} (hc : c ≠ ' ') (rest : List Char) :
    (trim (spaces k ++ c :: rest)).head? = some c := by
  have hfront : ¬(c :: rest).all (· = ' ') = true := not_all_spaces [] hc
  rw [trim, if_neg (not_all_spaces _ hc), dropWhile_spaces k hc]
  simp only [if_neg hfront]
  obtain ⟨tail, htail⟩ := List.rdropWhile_prefix (· = ' ') (c :: rest)
  cases hdrop : (c :: rest).rdropWhile (· = ' ') with
  | nil =>
    rw [List.rdropWhile_eq_nil_iff] at hdrop
    exact absurd (by simpa using hdrop c List.mem_cons_self) hc
  | cons c' rest' =>
    rw [hdrop, List.cons_append] at htail
    exact congrArg some (List.cons.inj htail).1

theorem trim_spaces (k l : ℕ) {w : List Char} (h : Tight w) : trim (spaces k ++ (w ++ spaces l)) = w := by
  obtain ⟨c, rest, rfl, hc⟩ := h.front
  obtain ⟨init, d, hback, hd⟩ := h.back
  have hfront : ¬(c :: rest ++ spaces l).all (· = ' ') = true := not_all_spaces [] hc
  rw [trim, List.cons_append, if_neg (not_all_spaces _ hc), dropWhile_spaces k hc]
  simp only [← List.cons_append, if_neg hfront]
  rw [hback]
  exact rdropWhile_spaces l hd init

/-! ## One line -/

theorem takeWhile_newline {tail : List Char} (h : '\n' ∈ tail) :
    ∃ rest, tail = tail.takeWhile (· ≠ '\n') ++ '\n' :: rest := by
  induction tail with
  | nil => cases h
  | cons c tail ih =>
    by_cases hc : c = '\n'
    · exact ⟨tail, by simp [hc]⟩
    · obtain ⟨rest, hrest⟩ := ih ((List.mem_cons.mp h).resolve_left (Ne.symm hc))
      refine ⟨rest, ?_⟩
      rw [List.takeWhile_cons_of_pos (by simpa using hc), List.cons_append, ← hrest]

theorem find_newline {front tail : List Char} : find (front ++ '=' :: tail) '\n' front.length =
    if '\n' ∈ tail then (front.length + 1 + (tail.takeWhile (· ≠ '\n')).length : ℤ) else -1 := by
  have hdrop : (front ++ '=' :: tail).drop front.length = '=' :: tail := by simp
  rw [find, hdrop]
  split_ifs with hmem
  · obtain ⟨rest, hrest⟩ := takeWhile_newline hmem
    have hbefore : '\n' ∉ '=' :: tail.takeWhile (· ≠ '\n') := by
      intro h
      rcases List.mem_cons.mp h with h | h
      · cases h
      · simpa using List.mem_takeWhile_imp h
    have hidx : ('=' :: tail).idxOf? '\n' = some ('=' :: tail.takeWhile (· ≠ '\n')).length := by
      have hsplit := idxOf?_append hbefore rest
      rwa [List.cons_append, ← hrest] at hsplit
    rw [hidx]
    simp only [List.length_cons]
    omega
  · have hnone : '\n' ∉ '=' :: tail := by simpa using hmem
    rw [idxOf?_eq_none hnone]

theorem loadLine_split (config : MprpcConfig) {buf front tail : List Char}
    (hbuf : trim (cString buf) = front ++ '=' :: tail) (hfront : '=' ∉ front)
    (hhash : (front ++ '=' :: tail).head? ≠ some '#') (hlen : front.length + tail.length < 2 ^ 32) :
    config.loadLine buf = config.insert (trim front) (trim (tail.takeWhile (· ≠ '\n'))) := by
  have hidx : find (front ++ '=' :: tail) '=' 0 = front.length := find_append hfront
  have hkey : substr (front ++ '=' :: tail) 0 front.length = front := by
    have hcount : ((front.length : ℤ) % 2 ^ 64).toNat = front.length := by omega
    rw [substr, hcount, List.drop_zero, List.take_left']
    rfl
  have hvalue : substr (front ++ '=' :: tail) (front.length + 1)
      (find (front ++ '=' :: tail) '\n' front.length - front.length - 1) =
      tail.takeWhile (· ≠ '\n') := by
    have hdrop : (front ++ '=' :: tail).drop (front.length + 1) = tail := by simp
    have hle : (tail.takeWhile (· ≠ '\n')).length ≤ tail.length :=
      (List.takeWhile_sublist _).length_le
    rw [substr, hdrop, find_newline]
    split_ifs with hmem
    · have hcount : (((front.length + 1 + (tail.takeWhile (· ≠ '\n')).length : ℤ) - front.length - 1) %
          2 ^ 64).toNat = (tail.takeWhile (· ≠ '\n')).length := by omega
      rw [hcount]
      exact (List.prefix_iff_eq_take.mp (List.takeWhile_prefix _)).symm
    · have hcount : tail.length ≤ (((-1 : ℤ) - front.length - 1) % 2 ^ 64).toNat := by omega
      rw [List.take_of_length_le hcount, eq_comm, List.takeWhile_eq_self_iff]
      intro c hc
      simpa using fun heq : c = '\n' => hmem (heq ▸ hc)
  have hne : ¬(front.length : ℤ) = -1 := by omega
  simp only [loadLine, hbuf, hidx, Int.toNat_natCast, hkey, hvalue, if_neg hne]
  rw [if_neg]
  rintro (h | h)
  · exact hhash h
  · simp at h

theorem trim_sublist (w : List Char) : (trim w).Sublist w := by
  have hfront : (if w.all (· = ' ') then w else w.dropWhile (· = ' ')).Sublist w := by
    split_ifs
    · exact List.Sublist.refl _
    · exact List.dropWhile_sublist _
  rw [trim]
  split_ifs at hfront ⊢ with hblank hblank'
  all_goals first
    | exact hfront
    | exact (List.rdropWhile_prefix _ _).sublist.trans hfront

theorem loadLine_of_notMem (config : MprpcConfig) {buf : List Char} (h : '=' ∉ buf) :
    config.loadLine buf = config := by
  have hsublist : (trim (cString buf)).Sublist buf :=
    (trim_sublist _).trans (List.takeWhile_sublist _)
  have hidx : find (trim (cString buf)) '=' 0 = -1 :=
    find_eq_neg_one fun hmem => h (hsublist.subset hmem)
  simp only [loadLine, hidx, if_true, ite_self]

theorem loadLine_comment (config : MprpcConfig) (k : ℕ) (rest : List Char) :
    config.loadLine (spaces k ++ '#' :: rest) = config := by
  have hstring : cString (spaces k ++ '#' :: rest) = spaces k ++ '#' :: cString rest := by
    rw [cString, spaces, List.takeWhile_append_of_pos (by simp),
      List.takeWhile_cons_of_pos (by decide), cString]
  simp only [loadLine, hstring, head?_trim k (by decide : '#' ≠ ' ') (cString rest), true_or, if_true]

def plainChar (c : Char) : Bool := c.isAlphanum || c = '.' || c = '-'

structure Plain (w : List Char) : Prop where
  ne_nil : w ≠ []
  all : ∀ c ∈ w, plainChar c = true

theorem Plain.notMem {w : List Char} (h : Plain w) {c : Char} (hc : plainChar c = false) : c ∉ w :=
  fun hmem => absurd (h.all c hmem) (by simp [hc])

theorem Plain.ne_space {w : List Char} (h : Plain w) {c : Char} (hmem : c ∈ w) : c ≠ ' ' := by
  rintro rfl
  exact h.notMem (by decide) hmem

theorem Plain.tight_append {w : List Char} (h : Plain w) (rest : List Char) {c : Char} (hc : c ≠ ' ') :
    Tight (w ++ (rest ++ [c])) := by
  obtain ⟨a, w', rfl⟩ := List.exists_cons_of_ne_nil h.ne_nil
  exact ⟨⟨a, w' ++ (rest ++ [c]), rfl, h.ne_space List.mem_cons_self⟩,
    ⟨a :: w' ++ rest, c, by simp, hc⟩⟩

theorem Plain.exists_concat {w : List Char} (h : Plain w) : ∃ rest c, w = rest ++ [c] ∧ c ≠ ' ' :=
  ⟨w.dropLast, w.getLast h.ne_nil, (List.dropLast_concat_getLast h.ne_nil).symm,
    h.ne_space (List.getLast_mem h.ne_nil)⟩

theorem Plain.tight {w : List Char} (h : Plain w) : Tight w := by
  obtain ⟨a, w', rfl⟩ := List.exists_cons_of_ne_nil h.ne_nil
  exact ⟨⟨a, w', rfl, h.ne_space List.mem_cons_self⟩, h.exists_concat⟩

theorem loadLine_entry (config : MprpcConfig) {buf key value tail : List Char} {k₂ k₃ l : ℕ}
    (hkey : Plain key) (hvalue : Plain value)
    (hbuf : trim (cString buf) = key ++ spaces k₂ ++ '=' :: tail)
    (htail : tail.takeWhile (· ≠ '\n') = spaces k₃ ++ (value ++ spaces l))
    (hlen : buf.length < 2 ^ 32) : config.loadLine buf = config.insert key value := by
  have hfront : '=' ∉ key ++ spaces k₂ := by
    rw [List.mem_append]
    rintro (h | h)
    · exact hkey.notMem (by decide) h
    · exact notMem_spaces (by decide) k₂ h
  have hhash : (key ++ spaces k₂ ++ '=' :: tail).head? ≠ some '#' := by
    obtain ⟨a, key', hcons⟩ := List.exists_cons_of_ne_nil hkey.ne_nil
    rw [hcons]
    intro h
    have ha : a = '#' := Option.some.inj h
    exact hkey.notMem (by decide : plainChar '#' = false) (by rw [hcons, ha]; exact List.mem_cons_self)
  have hsublist : (trim (cString buf)).length ≤ buf.length :=
    ((trim_sublist _).trans (List.takeWhile_sublist _)).length_le
  have hlen' : (key ++ spaces k₂).length + tail.length < 2 ^ 32 := by
    rw [hbuf, List.length_append, List.length_cons] at hsublist
    omega
  have hkeyTrim : trim (key ++ spaces k₂) = key := by
    simpa [spaces] using trim_spaces 0 k₂ hkey.tight
  rw [loadLine_split config hbuf hfront hhash hlen', hkeyTrim, htail, trim_spaces k₃ l hvalue.tight]

def PlainEntry (e : List Char × List Char) : Prop := Plain e.1 ∧ Plain e.2

theorem notMem_entry {key value : List Char} (hkey : Plain key) (hvalue : Plain value) {c : Char}
    (hc : plainChar c = false) (hspace : c ≠ ' ') (hequals : c ≠ '=') (k₁ k₂ k₃ k₄ : ℕ) :
    c ∉ (ConfLine.entry key value k₁ k₂ k₃ k₄).text := by
  simp only [ConfLine.text, List.mem_append, List.mem_cons, notMem_spaces hspace, hkey.notMem hc,
    hvalue.notMem hc, hequals, or_self, not_false_eq_true]

theorem cString_entry {key value ending : List Char} (hkey : Plain key) (hvalue : Plain value)
    (hending : '\x00' ∉ ending) (k₁ k₂ k₃ k₄ : ℕ) :
    cString ((ConfLine.entry key value k₁ k₂ k₃ k₄).text ++ ending) =
      (ConfLine.entry key value k₁ k₂ k₃ k₄).text ++ ending := by
  apply cString_eq_self
  rw [List.mem_append, not_or]
  exact ⟨notMem_entry hkey hvalue (by decide) (by decide) (by decide) k₁ k₂ k₃ k₄, hending⟩

theorem loadLine_entry_last (config : MprpcConfig) {key value : List Char} (hkey : Plain key)
    (hvalue : Plain value) (k₁ k₂ k₃ k₄ : ℕ)
    (hlen : (ConfLine.entry key value k₁ k₂ k₃ k₄).text.length < 2 ^ 32) :
    config.loadLine (ConfLine.entry key value k₁ k₂ k₃ k₄).text = config.insert key value := by
  obtain ⟨rest, c, hconcat, hc⟩ := hvalue.exists_concat
  have htight : Tight (key ++ (spaces k₂ ++ '=' :: (spaces k₃ ++ value))) := by
    have h := hkey.tight_append (spaces k₂ ++ '=' :: (spaces k₃ ++ rest)) hc
    rw [hconcat]
    simpa using h
  have hbuf : trim (cString (ConfLine.entry key value k₁ k₂ k₃ k₄).text) =
      key ++ spaces k₂ ++ '=' :: (spaces k₃ ++ value) := by
    have hstring := cString_entry hkey hvalue (List.not_mem_nil (a := '\x00')) k₁ k₂ k₃ k₄
    rw [List.append_nil] at hstring
    have htrim := trim_spaces k₁ k₄ htight
    rw [hstring, List.append_assoc, ← htrim]
    simp [ConfLine.text]
  have htail : (spaces k₃ ++ value).takeWhile (· ≠ '\n') = spaces k₃ ++ (value ++ spaces 0) := by
    rw [spaces, List.takeWhile_append_of_pos (by simp), List.takeWhile_eq_self_iff.mpr]
    · simp [spaces]
    · intro d hd
      simpa using fun heq : d = '\n' => hvalue.notMem (by decide) (heq ▸ hd)
  exact loadLine_entry config hkey hvalue hbuf htail hlen

theorem loadLine_entry_newline (config : MprpcConfig) {key value : List Char} (hkey : Plain key)
    (hvalue : Plain value) (k₁ k₂ k₃ k₄ : ℕ)
    (hlen : ((ConfLine.entry key value k₁ k₂ k₃ k₄).text ++ ['\n']).length < 2 ^ 32) :
    config.loadLine ((ConfLine.entry key value k₁ k₂ k₃ k₄).text ++ ['\n']) =
      config.insert key value := by
  have htight : Tight (key ++
      (spaces k₂ ++ '=' :: (spaces k₃ ++ (value ++ (spaces k₄ ++ ['\n']))))) := by
    have h := hkey.tight_append (spaces k₂ ++ '=' :: (spaces k₃ ++ (value ++ spaces k₄)))
      (by decide : '\n' ≠ ' ')
    simpa using h
  have hbuf : trim (cString ((ConfLine.entry key value k₁ k₂ k₃ k₄).text ++ ['\n'])) =
      key ++ spaces k₂ ++ '=' :: (spaces k₃ ++ (value ++ (spaces k₄ ++ ['\n']))) := by
    have htrim := trim_spaces k₁ 0 htight
    rw [cString_entry hkey hvalue (by decide), List.append_assoc, ← htrim]
    simp [ConfLine.text, spaces]
  have htail : (spaces k₃ ++ (value ++ (spaces k₄ ++ ['\n']))).takeWhile (· ≠ '\n') =
      spaces k₃ ++ (value ++ spaces k₄) := by
    have hvalue' : ∀ d ∈ value, decide (d ≠ '\n') = true := by
      intro d hd
      simpa using fun heq : d = '\n' => hvalue.notMem (by decide) (heq ▸ hd)
    rw [spaces, List.takeWhile_append_of_pos (by simp), List.takeWhile_append_of_pos hvalue', spaces,
      List.takeWhile_append_of_pos (by simp), List.takeWhile_cons_of_neg (by decide), List.append_nil]
  exact loadLine_entry config hkey hvalue hbuf htail hlen

def insertAll (config : MprpcConfig) (entries : List (List Char × List Char)) : MprpcConfig :=
  entries.foldl (fun config e => config.insert e.1 e.2) config

theorem loadLine_text (config : MprpcConfig) {line : ConfLine} {ending : List Char}
    (hplain : ∀ e ∈ line.entry?, PlainEntry e) (hlen : line.text.length < 511)
    (hending : ending = [] ∨ ending = ['\n']) :
    config.loadLine (line.text ++ ending) = config.insertAll line.entry?.toList := by
  have hequals : '=' ∉ ending := by
    rcases hending with rfl | rfl <;> decide
  cases line with
  | blank k =>
    apply loadLine_of_notMem
    rw [List.mem_append, not_or]
    exact ⟨notMem_spaces (by decide) k, hequals⟩
  | comment k text =>
    rw [ConfLine.text, List.append_assoc]
    exact loadLine_comment config k (text.val ++ ending)
  | entry key value k₁ k₂ k₃ k₄ =>
    obtain ⟨hkey, hvalue⟩ : Plain key ∧ Plain value := hplain (key, value) rfl
    rcases hending with rfl | rfl
    · rw [List.append_nil]
      exact loadLine_entry_last config hkey hvalue k₁ k₂ k₃ k₄ (by omega)
    · refine loadLine_entry_newline config hkey hvalue k₁ k₂ k₃ k₄ ?_
      rw [List.length_append, List.length_singleton]
      omega

/-! ## The whole file -/

theorem newline_notMem_text {line : ConfLine} (hplain : ∀ e ∈ line.entry?, PlainEntry e) :
    '\n' ∉ line.text := by
  cases line with
  | blank k => exact notMem_spaces (by decide) k
  | comment k text =>
    rw [ConfLine.text, List.mem_append, List.mem_cons]
    rintro (h | h | h)
    · exact notMem_spaces (by decide) k h
    · cases h
    · exact text.property h
  | entry key value k₁ k₂ k₃ k₄ =>
    obtain ⟨hkey, hvalue⟩ : Plain key ∧ Plain value := hplain (key, value) rfl
    exact notMem_entry hkey hvalue (by decide) (by decide) (by decide) k₁ k₂ k₃ k₄

theorem fileText_cons_cons (line next : ConfLine) (lines : List ConfLine) :
    fileText (line :: next :: lines) = line.text ++ '\n' :: fileText (next :: lines) := by
  simp [fileText, List.intercalate]

theorem loadFrom_fileText (config : MprpcConfig) {lines : List ConfLine}
    (hplain : ∀ line ∈ lines, ∀ e ∈ line.entry?, PlainEntry e)
    (hlen : ∀ line ∈ lines, line.text.length < 511) :
    config.loadFrom (fileText lines) = config.insertAll (lines.filterMap ConfLine.entry?) := by
  induction lines generalizing config with
  | nil =>
    have hread : fgets 512 (fileText []) = ([], [], true) := rfl
    rw [loadFrom, if_pos (by rw [hread]), hread]
    exact loadLine_of_notMem config List.not_mem_nil
  | cons line lines ih =>
    have hline := hplain line List.mem_cons_self
    have hshort := hlen line List.mem_cons_self
    have hentries : config.insertAll ((line :: lines).filterMap ConfLine.entry?) =
        (config.insertAll line.entry?.toList).insertAll (lines.filterMap ConfLine.entry?) := by
      cases h : line.entry? with
      | none => rw [List.filterMap_cons_none h]; rfl
      | some e => rw [List.filterMap_cons_some h]; rfl
    rw [hentries]
    cases lines with
    | nil =>
      have hread : fgets 512 (fileText [line]) = (line.text, [], true) := by
        have hfile : fileText [line] = line.text := by simp [fileText, List.intercalate]
        rw [hfile]
        exact fgetsLoop_last hshort (newline_notMem_text hline)
      have hload := loadLine_text config hline hshort (Or.inl rfl)
      rw [List.append_nil] at hload
      rw [loadFrom, if_pos (by rw [hread]), hread]
      exact hload
    | cons next lines =>
      have hread : fgets 512 (fileText (line :: next :: lines)) =
          (line.text ++ ['\n'], fileText (next :: lines), false) := by
        rw [fileText_cons_cons]
        exact fgetsLoop_line hshort (newline_notMem_text hline) _
      rw [loadFrom, if_neg (by rw [hread]; exact Bool.false_ne_true), hread,
        loadLine_text config hline hshort (Or.inr rfl)]
      exact ih _ (fun l hl => hplain l (List.mem_cons_of_mem _ hl))
        fun l hl => hlen l (List.mem_cons_of_mem _ hl)

theorem configMap_insert (config : MprpcConfig) (key value k : List Char) :
    (config.insert key value).configMap k =
      (config.configMap k).or (if k = key then some value else none) := by
  rw [insert]
  split_ifs with hsome hk hk
  · obtain ⟨v, hv⟩ := Option.isSome_iff_exists.mp hsome
    rw [hk, hv]
    rfl
  · rw [Option.or_none]
  · have hnone : config.configMap key = none := by simpa using hsome
    rw [hk, hnone]
    exact Function.update_self key (some value) config.configMap
  · rw [Option.or_none]
    exact Function.update_of_ne hk (some value) config.configMap

theorem configMap_insertAll (config : MprpcConfig) (entries : List (List Char × List Char))
    (k : List Char) :
    (config.insertAll entries).configMap k = (config.configMap k).or (entries.lookup k) := by
  induction entries generalizing config with
  | nil => exact Option.or_none.symm
  | cons e entries ih =>
    have hcons : config.insertAll (e :: entries) = (config.insert e.1 e.2).insertAll entries := rfl
    rw [hcons, ih, configMap_insert, Option.or_assoc, List.lookup_cons]
    by_cases hk : k = e.1
    · simp [hk]
    · have hbeq : (k == e.1) = false := by simpa using hk
      rw [if_neg hk, hbeq]
      rfl

def SingleValued (entries : List (List Char × List Char)) : Prop :=
  ∀ e ∈ entries, ∀ e' ∈ entries, e.1 = e'.1 → e = e'

theorem load_of_mem {entries : List (List Char × List Char)} (hsingle : SingleValued entries)
    {key value : List Char} (h : (key, value) ∈ entries) :
    (empty.insertAll entries).load key = value := by
  have hlookup : entries.lookup key = some value := by
    cases hfound : entries.lookup key with
    | none =>
      have hne := List.lookup_eq_none_iff.mp hfound (key, value) h
      simp at hne
    | some value' =>
      obtain ⟨l₁, l₂, hsplit, -⟩ := List.lookup_eq_some_iff.mp hfound
      have hmem : (key, value') ∈ entries := by simp [hsplit]
      have heq := hsingle (key, value') hmem (key, value) h rfl
      rw [(Prod.mk.inj heq).2]
  rw [load, configMap_insertAll, hlookup]
  rfl

theorem load_of_notMem {entries : List (List Char × List Char)} {key : List Char}
    (h : ∀ value, (key, value) ∉ entries) : (empty.insertAll entries).load key = [] := by
  have hlookup : entries.lookup key = none := by
    rw [List.lookup_eq_none_iff]
    intro e he
    simpa using fun heq : key = e.1 => h e.2 (heq ▸ he)
  rw [load, configMap_insertAll, hlookup]
  rfl

end MprpcConfig

/-! ## The entries of the nodes -/

open MprpcConfig

theorem plain_digits {n : ℕ} {c : Char} (h : c ∈ Nat.toDigits 10 n) : plainChar c = true := by
  have halpha : c.isAlphanum = true := by
    rw [Char.isAlphanum, isDigit_toDigits h, Bool.or_true]
  rw [plainChar, halpha]
  rfl

theorem plain_key (i : ℕ) {ending : List Char} (hending : ending.all plainChar = true) :
    Plain (nodeName i ++ ending) := by
  have hnode : "node".toList.all plainChar = true := by decide
  constructor
  · rw [nodeName]
    simp
  · intro c hc
    rw [nodeName, List.append_assoc, List.mem_append, List.mem_append] at hc
    rcases hc with h | h | h
    · exact List.all_eq_true.mp hnode c h
    · exact plain_digits h
    · exact List.all_eq_true.mp hending c h

theorem plain_ipKey (i : ℕ) : Plain (ipKey i) := plain_key i (by decide)

theorem plain_portKey (i : ℕ) : Plain (portKey i) := plain_key i (by decide)

theorem plain_ntoa (ip : InAddr) : Plain ip.ntoa := by
  constructor
  · rw [InAddr.ntoa]
    simp
  · intro c hc
    simp only [InAddr.ntoa, List.mem_append, List.mem_cons] at hc
    rcases hc with h | rfl | h | rfl | h | rfl | h
    all_goals first
      | exact plain_digits h
      | decide

theorem plain_toStringInt (i : ℤ) : Plain (toStringInt i) := by
  constructor
  · rw [toStringInt]
    split_ifs
    · exact List.cons_ne_nil _ _
    · exact Nat.toDigits_ne_nil
  · intro c hc
    rw [toStringInt] at hc
    split_ifs at hc
    · rcases List.mem_cons.mp hc with rfl | h
      · decide
      · exact plain_digits h
    · exact plain_digits hc

theorem nodeName_inj {i j : ℕ} (h : nodeName i = nodeName j) : i = j :=
  toDigits_inj (List.append_cancel_left h)

theorem ipKey_inj {i j : ℕ} (h : ipKey i = ipKey j) : i = j := nodeName_inj (List.append_cancel_right h)

theorem portKey_inj {i j : ℕ} (h : portKey i = portKey j) : i = j :=
  nodeName_inj (List.append_cancel_right h)

theorem ipKey_ne_portKey (i j : ℕ) : ipKey i ≠ portKey j := by
  intro h
  have hlast := congrArg List.getLast? h
  simp [ipKey, portKey] at hlast

theorem mem_runEntries {i : ℕ} {ip : InAddr} {port : Int16} {e : List Char × List Char} :
    e ∈ RpcProvider.runEntries i ip port ↔
      e = (ipKey i, ip.ntoa) ∨ e = (portKey i, toStringInt port.toInt) := by
  simp [RpcProvider.runEntries]

theorem mem_writtenFrom {i : ℕ} {nodes : List (InAddr × Int16)} {e : List Char × List Char} :
    e ∈ writtenFrom i nodes ↔
      ∃ j node, nodes[j]? = some node ∧ e ∈ RpcProvider.runEntries (i + j) node.1 node.2 := by
  induction nodes generalizing i with
  | nil => simp [writtenFrom]
  | cons node nodes ih =>
    rw [writtenFrom, List.mem_append, ih]
    constructor
    · rintro (h | ⟨j, node', hget, h⟩)
      · exact ⟨0, node, rfl, h⟩
      · refine ⟨j + 1, node', hget, ?_⟩
        rwa [Nat.add_right_comm] at h
    · rintro ⟨j, node', hget, h⟩
      cases j with
      | zero =>
        cases hget
        exact Or.inl h
      | succ j =>
        refine Or.inr ⟨j, node', hget, ?_⟩
        rwa [Nat.add_right_comm]

theorem plain_writtenFrom {i : ℕ} {nodes : List (InAddr × Int16)} {e : List Char × List Char}
    (h : e ∈ writtenFrom i nodes) : PlainEntry e := by
  obtain ⟨j, node, -, he⟩ := mem_writtenFrom.mp h
  rcases mem_runEntries.mp he with rfl | rfl
  · exact ⟨plain_ipKey _, plain_ntoa _⟩
  · exact ⟨plain_portKey _, plain_toStringInt _⟩

theorem singleValued_writtenFrom (nodes : List (InAddr × Int16)) :
    SingleValued (writtenFrom 0 nodes) := by
  intro e he e' he' hkey
  obtain ⟨j, node, hget, h⟩ := mem_writtenFrom.mp he
  obtain ⟨j', node', hget', h'⟩ := mem_writtenFrom.mp he'
  rw [Nat.zero_add] at h h'
  rcases mem_runEntries.mp h with rfl | rfl <;> rcases mem_runEntries.mp h' with rfl | rfl
  · obtain rfl := ipKey_inj hkey
    rw [Option.some.inj (hget.symm.trans hget')]
  · exact absurd hkey (ipKey_ne_portKey j j')
  · exact absurd hkey.symm (ipKey_ne_portKey j' j)
  · obtain rfl := portKey_inj hkey
    rw [Option.some.inj (hget.symm.trans hget')]

/-! ## The loop over the nodes -/

/-- The configuration names these nodes and no other. -/
structure Describes (config : MprpcConfig) (nodes : List (InAddr × Int16)) : Prop where
  ip : ∀ i node, nodes[i]? = some node → config.load (ipKey i) = node.1.ntoa
  port : ∀ i node, nodes[i]? = some node → config.load (portKey i) = toStringInt node.2.toInt
  rest : ∀ i, nodes[i]? = none → config.load (ipKey i) = []

theorem describes_insertAll {entries : List (List Char × List Char)} {nodes : List (InAddr × Int16)}
    (h : ∀ e, e ∈ entries ↔ e ∈ writtenFrom 0 nodes) : Describes (empty.insertAll entries) nodes := by
  have hsingle : SingleValued entries := by
    intro e he e' he'
    exact singleValued_writtenFrom nodes e ((h e).mp he) e' ((h e').mp he')
  have hmem : ∀ i node, nodes[i]? = some node → ∀ e ∈ RpcProvider.runEntries i node.1 node.2,
      e ∈ entries := by
    intro i node hget e he
    refine (h e).mpr (mem_writtenFrom.mpr ⟨i, node, hget, ?_⟩)
    rwa [Nat.zero_add]
  refine ⟨fun i node hget => ?_, fun i node hget => ?_, fun i hnone => ?_⟩
  · exact load_of_mem hsingle (hmem i node hget _ (mem_runEntries.mpr (Or.inl rfl)))
  · exact load_of_mem hsingle (hmem i node hget _ (mem_runEntries.mpr (Or.inr rfl)))
  · apply load_of_notMem
    intro value hvalue
    obtain ⟨j, node, hget, he⟩ := mem_writtenFrom.mp ((h _).mp hvalue)
    rw [Nat.zero_add] at he
    rcases mem_runEntries.mp he with heq | heq
    · obtain rfl := ipKey_inj (Prod.mk.inj heq).1
      rw [hnone] at hget
      cases hget
    · exact ipKey_ne_portKey i j (Prod.mk.inj heq).1

def ipPort (node : InAddr × Int16) : List Char × Int16 := (node.1.ntoa, node.2)

theorem nodeLoop_eq {config : MprpcConfig} {nodes : List (InAddr × Int16)} (h : Describes config nodes)
    (k i : ℕ) : nodeLoop config k i = ((nodes.drop i).take k).map ipPort := by
  induction k generalizing i with
  | zero => rfl
  | succ k ih =>
    rw [nodeLoop]
    cases hget : nodes[i]? with
    | none =>
      have hdrop : nodes.drop i = [] := List.drop_eq_nil_of_le (List.getElem?_eq_none_iff.mp hget)
      rw [h.rest i hget, hdrop]
      rfl
    | some node =>
      have hdrop : nodes.drop i = node :: nodes.drop (i + 1) := by
        obtain ⟨hi, rfl⟩ := List.getElem?_eq_some_iff.mp hget
        exact List.drop_eq_getElem_cons hi
      rw [h.ip i node hget, h.port i node hget, hdrop, List.take_succ_cons, List.map_cons,
        if_neg (plain_ntoa node.1).ne_nil, atoi_toStringInt, Int16.ofInt_toInt, ih, ipPort]

theorem length_nodeLoop_le (config : MprpcConfig) (k i : ℕ) : (nodeLoop config k i).length ≤ k := by
  induction k generalizing i with
  | zero => exact Nat.le_refl 0
  | succ k ih =>
    rw [nodeLoop]
    split_ifs
    · exact Nat.zero_le _
    · exact Nat.succ_le_succ (ih (i + 1))

/-! ## Writer and readers -/

/-- A file into which the entries of these nodes were written, each on a line of its own. -/
structure Written (nodes : List (InAddr × Int16)) (lines : List ConfLine) : Prop where
  entries : (lines.filterMap ConfLine.entry?).Perm (writtenFrom 0 nodes)
  short : ∀ line ∈ lines, line.text.length < 511

theorem Written.describes {nodes : List (InAddr × Int16)} {lines : List ConfLine}
    (h : Written nodes lines) : Describes (loadConfigFile (fileText lines)) nodes := by
  have hplain : ∀ line ∈ lines, ∀ e ∈ line.entry?, PlainEntry e := by
    intro line hline e he
    exact plain_writtenFrom (h.entries.mem_iff.mp (List.mem_filterMap.mpr ⟨line, hline, he⟩))
  rw [loadConfigFile, loadFrom_fileText empty hplain h.short]
  exact describes_insertAll fun e => h.entries.mem_iff

theorem nodeLoop_written {nodes : List (InAddr × Int16)} {lines : List ConfLine}
    (h : Written nodes lines) :
    nodeLoop (loadConfigFile (fileText lines)) nodeLimit 0 = (nodes.take nodeLimit).map ipPort := by
  rw [nodeLoop_eq h.describes, List.drop_zero]

theorem config_round_trip {nodes : List (InAddr × Int16)} {lines : List ConfLine}
    (hnodes : nodes.length ≤ nodeLimit) (h : Written nodes lines) :
    KvServer.ipPortVt (loadConfigFile (fileText lines)) = nodes.map ipPort ∧
      Clerk.ipPortVt (loadConfigFile (fileText lines)) = nodes.map ipPort := by
  have hloop := nodeLoop_written h
  rw [List.take_of_length_le hnodes] at hloop
  exact ⟨hloop, hloop⟩

def twoNodes : List (InAddr × Int16) := [(⟨127, 0, 0, 1⟩, 8080), (⟨10, 0, 0, 2⟩, -5)]

/-- The second node was up first, and the file was edited by hand. -/
def twoNodesFile : List ConfLine :=
  [.comment 1 ⟨" a=b".toList, by decide⟩, .entry "node1ip".toList "10.0.0.2".toList 0 0 0 0,
    .entry "node0ip".toList "127.0.0.1".toList 2 1 0 3, .blank 4,
    .entry "node1port".toList "-5".toList 0 0 0 0, .entry "node0port".toList "8080".toList 0 0 1 1]

theorem config_round_trip_twoNodes :
    KvServer.ipPortVt (loadConfigFile (fileText twoNodesFile)) =
        [("127.0.0.1".toList, 8080), ("10.0.0.2".toList, -5)] ∧
      Clerk.ipPortVt (loadConfigFile (fileText twoNodesFile)) =
        [("127.0.0.1".toList, 8080), ("10.0.0.2".toList, -5)] := by
  have hwritten : Written twoNodes twoNodesFile := ⟨by decide +kernel, by decide +kernel⟩
  have hpairs : twoNodes.map ipPort = [("127.0.0.1".toList, 8080), ("10.0.0.2".toList, -5)] := by
    decide +kernel
  have h := config_round_trip (by decide) hwritten
  rwa [hpairs] at h

/-- One node more than the counter allows, all on one machine. -/
def manyNodes : List (InAddr × Int16) := List.replicate 2147483647 (⟨127, 0, 0, 1⟩, 8080)

def writtenLines (nodes : List (InAddr × Int16)) : List ConfLine :=
  (writtenFrom 0 nodes).map fun e => .entry e.1 e.2 0 0 0 0

theorem written_manyNodes : Written manyNodes (writtenLines manyNodes) := by
  constructor
  · have hentries : ((writtenLines manyNodes).filterMap ConfLine.entry?) = writtenFrom 0 manyNodes := by
      rw [writtenLines, List.filterMap_map]
      exact List.filterMap_some
    rw [hentries]
  · intro line hline
    obtain ⟨e, he, rfl⟩ := List.mem_map.mp hline
    obtain ⟨j, node, hget, he⟩ := mem_writtenFrom.mp he
    rw [Nat.zero_add] at he
    obtain ⟨hj, -⟩ := List.getElem?_eq_some_iff.mp hget
    rw [manyNodes, List.length_replicate] at hj
    have hdigits : (Nat.toDigits 10 j).length ≤ 10 :=
      (Nat.length_toDigits_le_iff (by decide) (by decide)).mpr (by omega)
    have hvalues : node.1.ntoa.length = 9 ∧ (toStringInt node.2.toInt).length = 4 := by
      rw [List.eq_of_mem_replicate (List.mem_of_getElem? hget)]
      decide +kernel
    rcases mem_runEntries.mp he with rfl | rfl
    · simp [ConfLine.text, spaces, ipKey, nodeName, hvalues.1]
      omega
    · simp [ConfLine.text, spaces, portKey, nodeName, hvalues.2]
      omega

theorem last_node_unread : ¬∀ (nodes : List (InAddr × Int16)) (lines : List ConfLine),
    Written nodes lines → KvServer.ipPortVt (loadConfigFile (fileText lines)) = nodes.map ipPort ∧
      Clerk.ipPortVt (loadConfigFile (fileText lines)) = nodes.map ipPort := by
  intro h
  have hread := (h manyNodes (writtenLines manyNodes) written_manyNodes).1
  have hlength := length_nodeLoop_le (loadConfigFile (fileText (writtenLines manyNodes))) nodeLimit 0
  rw [KvServer.ipPortVt] at hread
  rw [hread, List.length_map, manyNodes, List.length_replicate] at hlength
  exact absurd hlength (by decide)

end RaftStorage
