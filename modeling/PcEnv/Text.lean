import Mathlib.Data.List.TakeWhile
import Mathlib.Tactic
import PcEnv.Word

/-! Byte strings: literals, the searches of `std::string` with their results as `int`s, and the
pieces of a string between separators. -/
namespace PcEnv
namespace Text

open Word

def ascii (s : String) : List UInt8 := s.toList.map (fun c => UInt8.ofNat c.toNat)

def npos : ℕ := sizeMod-1

def findFirstOf (s : List UInt8) (c : UInt8) : ℕ := if c ∈ s then s.idxOf c else npos

def find (s pat : List UInt8) : ℕ :=
  ((List.range (s.length+1)).find? (fun i => pat.isPrefixOf (s.drop i))).getD npos

/-- `none` is `std::out_of_range`. -/
def substr (s : List UInt8) (pos n : ℕ) : Option (List UInt8) :=
  if pos ≤ s.length then some ((s.drop pos).take n) else none

/-- The `size_t` that an `int` converts to. -/
def sizeOfInt (i : ℤ) : ℕ := (i % 2^64).toNat

@[simp] theorem toInt_npos : toInt npos = -1 := by decide

@[simp] theorem sizeOfInt_neg_one : sizeOfInt (-1) = npos := by decide

theorem sizeOfInt_natCast {x : ℕ} (h : x < sizeMod) : sizeOfInt x = x := by
  have hmod : (x : ℤ) % 2^64 = x := Int.emod_eq_of_lt (by omega) (by
    unfold sizeMod at h
    omega)
  rw [sizeOfInt,hmod,Int.toNat_natCast]

section

variable {a b s t pat : List UInt8} {c : UInt8}

theorem findFirstOf_append (h : c ∉ a) : findFirstOf (a++c::b) c = a.length := by
  rw [findFirstOf,if_pos (by simp),List.idxOf_append,if_neg h,List.idxOf_cons_self]
  exact Nat.zero_add _

theorem findFirstOf_not_mem (h : c ∉ s) : findFirstOf s c = npos := if_neg h

theorem toInt_findFirstOf (h : c ∉ a) (hlen : (a++c::b).length ≤ intMax) :
    toInt (findFirstOf (a++c::b) c) = a.length := by
  rw [List.length_append] at hlen
  rw [findFirstOf_append h,toInt_eq (by omega)]

theorem toInt_findFirstOf_not_mem (h : c ∉ s) : toInt (findFirstOf s c) = -1 := by
  rw [findFirstOf_not_mem h,toInt_npos]

theorem substr_left (hlen : (a++b).length ≤ intMax) :
    substr (a++b) 0 (sizeOfInt a.length) = some a := by
  rw [List.length_append] at hlen
  rw [sizeOfInt_natCast (by unfold intMax at hlen; unfold sizeMod; omega),substr,
    if_pos (Nat.zero_le _),List.drop_zero,List.take_left]

theorem substr_drop {n : ℕ} (hn : n ≤ s.length) (hlen : s.length ≤ intMax) :
    substr s (sizeOfInt n) npos = some (s.drop n) := by
  have hsize : s.length < sizeMod-1 := by
    unfold intMax at hlen
    unfold sizeMod
    omega
  rw [sizeOfInt_natCast (by omega),substr,if_pos hn,List.take_of_length_le]
  rw [List.length_drop,npos]
  omega

theorem substr_isSome {pos n : ℕ} (h : pos ≤ s.length) : ∃ t, substr s pos n = some t :=
  ⟨_,if_pos h⟩

theorem find_eq {i : ℕ} (hi : i ≤ s.length) (hat : pat <+: s.drop i)
    (hbefore : ∀ j, j < i → ¬pat <+: s.drop j) : find s pat = i := by
  have hfind : (List.range (s.length+1)).find? (fun j => pat.isPrefixOf (s.drop j)) = some i := by
    refine List.find?_range_eq_some.mpr ⟨List.isPrefixOf_iff_prefix.mpr hat,
      List.mem_range.mpr (Nat.lt_succ_of_le hi),fun j hj => ?_⟩
    have hno : pat.isPrefixOf (s.drop j) = false :=
      Bool.eq_false_iff.mpr (fun h => hbefore j hj (List.isPrefixOf_iff_prefix.mp h))
    rw [hno]
    rfl
  rw [find,hfind,Option.getD_some]

theorem find_spec {i : ℕ} (h : find s pat = i) (hi : i ≠ npos) :
    i ≤ s.length ∧ pat <+: s.drop i ∧ ∀ j, j < i → ¬pat <+: s.drop j := by
  unfold find at h
  cases hfind : (List.range (s.length+1)).find? (fun j => pat.isPrefixOf (s.drop j)) with
  | none =>
    rw [hfind,Option.getD_none] at h
    exact absurd h.symm hi
  | some k =>
    rw [hfind,Option.getD_some] at h
    obtain ⟨hat,hk,hbefore⟩ := List.find?_range_eq_some.mp hfind
    refine ⟨h ▸ Nat.le_of_lt_succ (List.mem_range.mp hk),
      h ▸ List.isPrefixOf_iff_prefix.mp hat,fun j hj hpre => ?_⟩
    have hno := hbefore j (h ▸ hj)
    rw [List.isPrefixOf_iff_prefix.mpr hpre] at hno
    exact absurd hno (by decide)

theorem substr_find (hlen : s.length ≤ intMax) :
    substr s 0 (sizeOfInt (toInt (find s pat))) = some (s.take (find s pat)) := by
  by_cases hn : find s pat = npos
  · rw [hn,toInt_npos,sizeOfInt_neg_one]
    exact if_pos (Nat.zero_le _)
  · obtain ⟨hle,-⟩ := find_spec rfl hn
    rw [toInt_eq (by omega),sizeOfInt_natCast (by unfold intMax at hlen; unfold sizeMod; omega)]
    exact if_pos (Nat.zero_le _)

theorem find_ne_npos {i : ℕ} (hi : i ≤ s.length) (hat : pat <+: s.drop i)
    (hlen : s.length ≤ intMax) : find s pat ≠ npos := by
  unfold find
  cases hfind : (List.range (s.length+1)).find? (fun j => pat.isPrefixOf (s.drop j)) with
  | none =>
    have hno := List.find?_range_eq_none.mp hfind i (Nat.lt_succ_of_le hi)
    rw [List.isPrefixOf_iff_prefix.mpr hat] at hno
    exact absurd hno (by decide)
  | some k =>
    have hk := List.mem_range.mp (List.find?_range_eq_some.mp hfind).2.1
    rw [Option.getD_some]
    unfold npos sizeMod
    unfold intMax at hlen
    omega

/-- What follows an occurrence does not change where the first one is. -/
theorem find_append_right {i : ℕ} (h : find s pat = i) (hi : i ≠ npos) (t : List UInt8) :
    find (s++t) pat = i := by
  obtain ⟨hle,hat,hbefore⟩ := find_spec h hi
  have hlen := hat.length_le
  rw [List.length_drop] at hlen
  refine find_eq (by rw [List.length_append]; omega) ?_ (fun j hj hpre => hbefore j hj ?_)
  · rw [List.drop_append_of_le_length hle]
    exact hat.trans (List.prefix_append _ _)
  · rw [List.drop_append_of_le_length (by omega)] at hpre
    exact List.prefix_of_prefix_length_le hpre (List.prefix_append _ _)
      (by rw [List.length_drop]; omega)

end

def before (c : UInt8) (s : List UInt8) : List UInt8 := s.takeWhile (fun x => x ≠ c)

def after (c : UInt8) (s : List UInt8) : List UInt8 := (s.dropWhile (fun x => x ≠ c)).tail

section

variable {a b s : List UInt8} {c d : UInt8}

theorem before_append (h : c ∉ a) : before c (a++c::b) = a := by
  have hall : ∀ x ∈ a, (fun x => decide (x ≠ c)) x = true := by
    intro x hx
    simpa using ne_of_mem_of_not_mem hx h
  rw [before,List.takeWhile_append_of_pos hall,List.takeWhile_cons_of_neg (by simp),
    List.append_nil]

theorem after_append (h : c ∉ a) : after c (a++c::b) = b := by
  have hall : ∀ x ∈ a, (fun x => decide (x ≠ c)) x = true := by
    intro x hx
    simpa using ne_of_mem_of_not_mem hx h
  rw [after,List.dropWhile_append_of_pos hall,List.dropWhile_cons_of_neg (by simp),
    List.tail_cons]

theorem before_not_mem (h : c ∉ s) : before c s = s := by
  rw [before,List.takeWhile_eq_self_iff]
  intro x hx
  simpa using ne_of_mem_of_not_mem hx h

theorem before_append_cons (c : UInt8) (a b : List UInt8) : before c (a++c::b) = before c a := by
  by_cases hc : c ∈ a
  · obtain ⟨a',b',rfl,ha⟩ := List.eq_append_cons_of_mem hc
    rw [List.append_assoc,List.cons_append,before_append ha,before_append ha]
  · rw [before_append hc,before_not_mem hc]

theorem before_append_of_mem (h : c ∈ a) (b : List UInt8) : before c (a++b) = before c a := by
  obtain ⟨a',b',rfl,ha⟩ := List.eq_append_cons_of_mem h
  rw [List.append_assoc,List.cons_append,before_append ha,before_append ha]

theorem after_append_of_mem (h : c ∈ a) (b : List UInt8) : after c (a++b) = after c a++b := by
  obtain ⟨a',b',rfl,ha⟩ := List.eq_append_cons_of_mem h
  rw [List.append_assoc,List.cons_append,after_append ha,after_append ha]

theorem before_append_not_mem (h : c ∉ a) (b : List UInt8) : before c (a++b) = a++before c b := by
  rw [before,List.takeWhile_append_of_pos (fun x hx => by
    simpa using ne_of_mem_of_not_mem hx h)]
  rfl

theorem not_mem_before : c ∉ before c s := by
  intro h
  simpa using List.mem_takeWhile_imp h

theorem mem_before (h : d ∈ before c s) : d ∈ s := List.takeWhile_subset _ h

theorem before_after (h : c ∈ s) : before c s++c::after c s = s := by
  obtain ⟨a,b,rfl,ha⟩ := List.eq_append_cons_of_mem h
  rw [before_append ha,after_append ha]

end

def initPieces (c : UInt8) (s : List UInt8) : List (List UInt8) := (s.splitOn c).dropLast

def lastPiece (c : UInt8) (s : List UInt8) : List UInt8 :=
  (s.splitOn c).getLast (List.splitOn_ne_nil c s)

section

variable {a b s t : List UInt8} {c : UInt8}

theorem pieces (c : UInt8) (s : List UInt8) : s.splitOn c = initPieces c s++[lastPiece c s] :=
  (List.dropLast_append_getLast _).symm

theorem initPieces_not_mem (h : c ∉ s) : initPieces c s = [] := by
  simp only [initPieces,List.splitOn_eq_singleton h,List.dropLast_singleton]

theorem lastPiece_not_mem (h : c ∉ s) : lastPiece c s = s := by
  simp only [lastPiece,List.splitOn_eq_singleton h,List.getLast_singleton]

theorem initPieces_append (h : c ∉ a) : initPieces c (a++c::b) = a::initPieces c b := by
  simp only [initPieces,List.splitOn_append_cons_self_of_not_mem h]
  exact List.dropLast_cons_of_ne_nil (List.splitOn_ne_nil c b)

theorem lastPiece_append (h : c ∉ a) : lastPiece c (a++c::b) = lastPiece c b := by
  simp only [lastPiece,List.splitOn_append_cons_self_of_not_mem h]
  exact List.getLast_cons (List.splitOn_ne_nil c b)

theorem pieces_induction (c : UInt8) {P : List UInt8 → Prop} (last : ∀ s, c ∉ s → P s)
    (piece : ∀ a b, c ∉ a → P b → P (a++c::b)) (s : List UInt8) : P s := by
  induction hn : s.length using Nat.strong_induction_on generalizing s with
  | _ n ih =>
    by_cases hc : c ∈ s
    · obtain ⟨a,b,rfl,ha⟩ := List.eq_append_cons_of_mem hc
      rw [List.length_append,List.length_cons] at hn
      exact piece a b ha (ih b.length (by omega) b rfl)
    · exact last s hc

theorem lastPiece_mem : lastPiece c s ∈ s.splitOn c := List.getLast_mem _

theorem not_mem_lastPiece (c : UInt8) (s : List UInt8) : c ∉ lastPiece c s := by
  induction s using pieces_induction c with
  | last s hs => rwa [lastPiece_not_mem hs]
  | piece a b ha ih => rwa [lastPiece_append ha]

theorem pieces_append (c : UInt8) (s t : List UInt8) :
    initPieces c (s++t) = initPieces c s++initPieces c (lastPiece c s++t) ∧
      lastPiece c (s++t) = lastPiece c (lastPiece c s++t) := by
  induction s using pieces_induction c with
  | last s hs =>
    rw [initPieces_not_mem hs,lastPiece_not_mem hs]
    exact ⟨rfl,rfl⟩
  | piece a b ha ih =>
    rw [List.append_assoc,List.cons_append,initPieces_append ha,initPieces_append ha,
      lastPiece_append ha,lastPiece_append ha,ih.1,ih.2]
    exact ⟨rfl,rfl⟩

end

def words (c : UInt8) (s : List UInt8) : List (List UInt8) := (s.splitOn c).filter (· ≠ [])

/-- A separator stands between two words only, and only one. -/
structure SingleSpaced (c : UInt8) (s : List UInt8) : Prop where
  ne_nil : s ≠ []
  head : s.head? ≠ some c
  last : s.getLast? ≠ some c
  apart : ¬ [c,c] <:+: s

section

variable {a b s : List UInt8} {c : UInt8}

theorem not_mem_of_mem_splitOn (h : a ∈ s.splitOn c) : c ∉ a := by
  induction s using pieces_induction c with
  | last s hs =>
    rw [List.splitOn_eq_singleton hs,List.mem_singleton] at h
    rwa [h]
  | piece b t hb ih =>
    rw [List.splitOn_append_cons_self_of_not_mem hb,List.mem_cons] at h
    rcases h with rfl | h
    · exact hb
    · exact ih h

theorem not_mem_of_mem_words (h : a ∈ words c s) : a ≠ [] ∧ c ∉ a := by
  obtain ⟨hmem,hne⟩ := List.mem_filter.mp h
  exact ⟨by simpa using hne,not_mem_of_mem_splitOn hmem⟩

theorem infix_append_cons (h : c ∉ a) :
    [c,c] <:+: a++c::b ↔ b.head? = some c ∨ [c,c] <:+: b := by
  induction a with
  | nil =>
    rw [List.nil_append,List.infix_cons_iff,List.cons_prefix_cons,and_iff_right rfl]
    cases b with
    | nil => simp
    | cons x b => simp [eq_comm]
  | cons x a ih =>
    have hx : c ≠ x := fun he => h (he ▸ List.mem_cons_self)
    rw [List.cons_append,List.infix_cons_iff,List.cons_prefix_cons,
      ih (fun ha => h (List.mem_cons_of_mem _ ha))]
    simp [hx]

theorem singleSpaced_append (h : c ∉ a) :
    SingleSpaced c (a++c::b) ↔ a ≠ [] ∧ SingleSpaced c b := by
  have hlast : b ≠ [] → (a++c::b).getLast? = b.getLast? := by
    intro hb
    rw [List.getLast?_append_of_ne_nil _ (List.cons_ne_nil c b)]
    obtain ⟨x,b',rfl⟩ := List.exists_cons_of_ne_nil hb
    exact List.getLast?_cons_cons
  constructor
  · intro hs
    have hb : b ≠ [] := by
      rintro rfl
      exact hs.last (by simp)
    refine ⟨?_,hb,?_,?_,?_⟩
    · rintro rfl
      exact hs.head rfl
    · exact fun hhead => hs.apart ((infix_append_cons h).mpr (.inl hhead))
    · exact hlast hb ▸ hs.last
    · exact fun hin => hs.apart ((infix_append_cons h).mpr (.inr hin))
  · rintro ⟨ha,hs⟩
    obtain ⟨x,a',rfl⟩ := List.exists_cons_of_ne_nil ha
    refine ⟨by simp,?_,?_,?_⟩
    · simp only [List.cons_append,List.head?_cons,ne_eq,Option.some.injEq]
      exact fun hx => h (hx ▸ List.mem_cons_self)
    · rw [hlast hs.ne_nil]
      exact hs.last
    · rw [infix_append_cons h]
      exact not_or.mpr ⟨hs.head,hs.apart⟩

/-- Single spaced is a string without an empty piece. -/
theorem singleSpaced_iff (c : UInt8) (s : List UInt8) : SingleSpaced c s ↔ [] ∉ s.splitOn c := by
  induction s using pieces_induction c with
  | last s hs =>
    rw [List.splitOn_eq_singleton hs,List.mem_singleton]
    constructor
    · exact fun h => h.ne_nil.symm
    · intro h
      refine ⟨Ne.symm h,?_,?_,?_⟩
      · exact fun hhead => hs (List.mem_of_mem_head? hhead)
      · exact fun hlast => hs (List.mem_of_getLast? hlast)
      · exact fun hin => hs (hin.subset List.mem_cons_self)
  | piece a b ha ih =>
    rw [singleSpaced_append ha,List.splitOn_append_cons_self_of_not_mem ha,List.mem_cons,not_or,ih,
      ne_comm]

theorem SingleSpaced.words (h : SingleSpaced c s) : words c s = s.splitOn c := by
  rw [singleSpaced_iff] at h
  exact List.filter_eq_self.mpr (fun a ha => by simpa using ne_of_mem_of_not_mem ha h)

theorem singleSpaced_intercalate {v : List (List UInt8)} (hv : v ≠ [])
    (hwords : ∀ w ∈ v, w ≠ [] ∧ c ∉ w) :
    SingleSpaced c ([c].intercalate v) ∧ Text.words c ([c].intercalate v) = v := by
  have hsplit := List.splitOn_intercalate c (fun w hw => (hwords w hw).2) hv
  have hs : SingleSpaced c ([c].intercalate v) := by
    rw [singleSpaced_iff,hsplit]
    exact fun hnil => (hwords [] hnil).1 rfl
  exact ⟨hs,hs.words.trans hsplit⟩

end

end Text
end PcEnv
