import PcEnv.AmfConsumes

/-! What the writers write is read back. -/
namespace PcEnv
namespace Amf

open Bytes

/-- The values that AMF0 has a form for and `amf_write` a case. -/
inductive Plain : AMFValue → Prop
  | string {s : List UInt8} (h : s.length < 2^16) : Plain (.string s)
  | number (n : UInt64) : Plain (.number n)
  | boolean (b : Bool) : Plain (.boolean b)
  | object {o : AmfObject} (hsorted : OrderedMap.Sorted o) (hkey : ∀ p ∈ o, KeyOk p.1)
      (hvalue : ∀ p ∈ o, Plain p.2) : Plain (.object o)
  | null : Plain .null

inductive Defined : AMFValue → Prop
  | string (s : List UInt8) : Defined (.string s)
  | number (n : UInt64) : Defined (.number n)
  | boolean (b : Bool) : Defined (.boolean b)
  | object {o : AmfObject} (h : ∀ p ∈ o, Defined p.2) : Defined (.object o)
  | null : Defined .null

def Item.entry (i : Item) : List UInt8 × AMFValue := (i.key,i.value)

theorem collect_eq (items : List Item) (o : AmfObject) :
    collect items o =
      (items.map Item.entry).foldl (fun o p => OrderedMap.insert p.1 p.2 o) o := by
  rw [List.foldl_map]
  rfl

theorem writeEntries_form {o : AmfObject} (h : ∀ p ∈ o, ∃ w, amfWrite p.2 = .ok w ∧ Form w p.2) :
    ∃ items : List Item, amfWrite.writeEntries o = .ok (items.flatMap Item.wire) ∧
      (∀ i ∈ items, Form i.bytes i.value) ∧ items.map Item.entry = o := by
  induction o with
  | nil => exact ⟨[],rfl,by simp,rfl⟩
  | cons p o ih =>
    obtain ⟨key,value⟩ := p
    obtain ⟨w,hw,hF⟩ := h (key,value) List.mem_cons_self
    obtain ⟨items,hitems,hforms,rfl⟩ := ih (fun q hq => h q (List.mem_cons_of_mem _ hq))
    refine ⟨⟨key,w,value⟩::items,?_,List.forall_mem_cons.mpr ⟨hF,hforms⟩,rfl⟩
    rw [amfWrite.writeEntries,hw,hitems]
    rfl

theorem writeEntries_items {o : AmfObject} (hsorted : OrderedMap.Sorted o)
    (hkey : ∀ p ∈ o, KeyOk p.1) (h : ∀ p ∈ o, ∃ w, amfWrite p.2 = .ok w ∧ Form w p.2) :
    ∃ items : List Item, amfWrite.writeEntries o = .ok (items.flatMap Item.wire) ∧
      Items Form items ∧ collect items [] = o := by
  obtain ⟨items,hitems,hforms,hmap⟩ := writeEntries_form h
  refine ⟨items,hitems,⟨?_,hforms⟩,?_⟩
  · intro i hi
    have hmem : i.entry ∈ o := hmap ▸ List.mem_map_of_mem hi
    exact hkey i.entry hmem
  · rw [collect_eq,hmap,OrderedMap.foldl_insert hsorted]

theorem amfWrite_form {v : AMFValue} (h : Plain v) : ∃ w, amfWrite v = .ok w ∧ Form w v := by
  induction h with
  | string hs => exact ⟨_,by rw [amfWrite],.string hs⟩
  | number n => exact ⟨_,by rw [amfWrite],.number n⟩
  | boolean b =>
    refine ⟨_,by rw [amfWrite],?_⟩
    cases b
    · exact Form.boolean (b:=0) (by decide)
    · exact Form.boolean (b:=1) (by decide)
  | object hsorted hkey _ ih =>
    obtain ⟨items,hitems,hform,rfl⟩ := writeEntries_items hsorted hkey ih
    refine ⟨amf0Object::members items,?_,.object hform.key hform.value⟩
    rw [amfWrite,hitems]
    rfl
  | null => exact ⟨_,by rw [amfWrite,amfWriteNull],.null⟩

/-- What is read is in order and of the lengths that fit, so that only an undefined value in it
cannot be written. -/
theorem Form.plain {w : List UInt8} {v : AMFValue} (h : Form w v) (hv : Defined v) : Plain v := by
  have hobject {items : List Item} (hkey : ∀ i ∈ items, KeyOk i.key)
      (ih : ∀ i ∈ items, Defined i.value → Plain i.value)
      (hv : Defined (.object (collect items []))) : Plain (.object (collect items [])) := by
    have hdef : ∀ p ∈ collect items [], Defined p.2 := by
      cases hv with
      | object hdef => exact hdef
    rw [collect_eq] at hdef ⊢
    have hmem : ∀ p ∈ (items.map Item.entry).foldl (fun o p => OrderedMap.insert p.1 p.2 o) [],
        ∃ i ∈ items, i.entry = p := by
      intro p hp
      rcases OrderedMap.mem_foldl_insert hp with hp | hp
      · cases hp
      · exact List.mem_map.mp hp
    refine .object (OrderedMap.sorted_foldl_insert OrderedMap.sorted_nil _) ?_ ?_
    · intro p hp
      obtain ⟨i,hi,rfl⟩ := hmem p hp
      exact hkey i hi
    · intro p hp
      obtain ⟨i,hi,rfl⟩ := hmem p hp
      exact ih i hi (hdef _ hp)
  induction h with
  | string hs => exact .string hs
  | number n => exact .number n
  | boolean _ => exact .boolean _
  | object hkey _ ih => exact hobject hkey ih hv
  | ecma _ hkey _ ih => exact hobject hkey ih hv
  | null => exact .null
  | undefined => cases hv

/-- `amf_write` and `amf_load`, whatever stands before and after. -/
theorem amfLoad_amfWrite {v : AMFValue} (h : Plain v) (before after : List UInt8) (n : ℕ) :
    ∃ w, amfWrite v = .ok w ∧
      amfLoad (w.length+1+n) ⟨before++w++after,before.length,0⟩ =
        .ok (v,⟨before++w++after,before.length+w.length,0⟩) := by
  obtain ⟨w,hw,hF⟩ := amfWrite_form h
  exact ⟨w,hw,amfLoad_complete hF (by omega) rfl (took_between before w after 0)⟩

theorem amfLoad_amfWrite_flag :
    ∃ w, amfWrite (.object [([97],.boolean true)]) = .ok w ∧
      amfLoad (w.length+1+0) ⟨[7]++w++[17],[7].length,0⟩ =
        .ok (.object [([97],.boolean true)],⟨[7]++w++[17],[7].length+w.length,0⟩) :=
  amfLoad_amfWrite
    (.object (List.pairwise_singleton _ _) (by simp [KeyOk])
      (by simpa using Plain.boolean true)) [7] [17] 0

/-- The metadata that a publisher sends are read from what the server sends on. -/
theorem amfLoadEcma_amfWriteEcma {dec dec' : Decoder} {o : AmfObject} {fuel : ℕ}
    (h : amfLoadEcma fuel dec = .ok (o,dec')) (hv : dec'.version = 0)
    (ho : ∀ p ∈ o, Defined p.2) (before after : List UInt8) (n : ℕ) :
    ∃ w, amfWriteEcma o = .ok w ∧
      amfLoadEcma (w.length+1+n) ⟨before++w++after,before.length,0⟩ =
        .ok (o,⟨before++w++after,before.length+w.length,0⟩) := by
  obtain ⟨-,_,⟨count,items,hcount,hitems,rfl,rfl⟩,-⟩ :=
    loadEcmaWith_sound (amfLoad_sound fuel) fuel dec o dec' h hv
  have hplain := (Form.ecma hcount hitems.key hitems.value).plain (.object ho)
  cases hplain with
  | object hsorted hkey hvalue =>
    obtain ⟨items',hwrite,hitems',hcollect⟩ :=
      writeEntries_items hsorted hkey (fun p hp => amfWrite_form (hvalue p hp))
    refine ⟨amf0EcmaArray::(toBe 4 0++members items'),?_,?_⟩
    · rw [amfWriteEcma,hwrite]
      simp [members,bind,Except.bind]
    · rw [← hcollect]
      have hlen := length_le_members items'
      refine loadEcmaWith_complete ?_ hitems'.key ?_ rfl (length_toBe 4 0)
        (took_between before _ after 0)
      · intro i hi d d' hd ht
        have hi' := length_bytes_lt hi
        refine amfLoad_complete (hitems'.value i hi) ?_ hd ht
        simp only [List.length_cons,List.length_append]
        omega
      · simp only [List.length_cons,List.length_append]
        omega

/-- Of an entry that stands there twice the first is kept. -/
theorem amfLoadEcma_amfWriteEcma_twice :
    ∃ w, amfWriteEcma [([97],.boolean true)] = .ok w ∧
      amfLoadEcma (w.length+1+0) ⟨[7]++w++[17],[7].length,0⟩ =
        .ok ([([97],.boolean true)],⟨[7]++w++[17],[7].length+w.length,0⟩) :=
  have hload : amfLoadEcma 9 ⟨[8,1,2,3,4,0,1,97,1,1,0,1,97,5,0,0,9],0,0⟩ =
      .ok ([([97],.boolean true)],⟨[8,1,2,3,4,0,1,97,1,1,0,1,97,5,0,0,9],17,0⟩) := by rfl
  amfLoadEcma_amfWriteEcma hload rfl (by simpa using Defined.boolean true) [7] [17] 0

section

variable {load : Decoder → Except Exn (AMFValue × Decoder)} {dec dec' : Decoder} {fuel : ℕ}
  {key : List UInt8} {v : AMFValue} {o o' : AmfObject}

theorem loadEntries_find (ho : OrderedMap.Sorted o) (hfind : OrderedMap.find key o = some v)
    (h : loadEntries load fuel o dec = .ok (o',dec')) : OrderedMap.find key o' = some v := by
  induction fuel generalizing o dec with
  | zero => cases h
  | succ fuel ih =>
    obtain ⟨⟨k,d⟩,-,h⟩ := bind_ok_iff.mp h
    simp only at h
    split_ifs at h
    · cases h
      exact hfind
    · obtain ⟨⟨x,e⟩,-,h⟩ := bind_ok_iff.mp h
      exact ih (OrderedMap.sorted_insert k x ho) (OrderedMap.find_insert_of_some ho hfind) h

theorem amfLoad_number (hv : dec.version = 0) (hp : peek dec = .ok amf0Number)
    (h : amfLoad fuel dec = .ok (v,dec')) : ∃ n, v = .number n := by
  obtain ⟨fuel,rfl⟩ : ∃ n, fuel = n+1 := by
    cases fuel with
    | zero => cases h
    | succ n => exact ⟨n,rfl⟩
  rw [amfLoad_eq hv hp,if_neg (by decide),if_pos rfl] at h
  obtain ⟨p,-,h⟩ := map_ok_iff.mp h
  cases h
  exact ⟨p.1,rfl⟩

theorem writeEntries_cons_ok_iff {w : List UInt8} :
    amfWrite.writeEntries ((key,v)::o) = .ok w ↔
      ∃ x ws, amfWrite v = .ok x ∧ amfWrite.writeEntries o = .ok ws ∧ amfWriteKey key++x++ws = w := by
  rw [amfWrite.writeEntries]
  simp only [bind_ok_iff,Except.ok.injEq]
  constructor
  · rintro ⟨x,hx,ws,hws,h⟩
    exact ⟨x,ws,hx,hws,h⟩
  · rintro ⟨x,ws,hx,hws,h⟩
    exact ⟨x,hx,ws,hws,h⟩

theorem writeEntries_append {o₁ o₂ : AmfObject} {w₁ w : List UInt8}
    (h₁ : amfWrite.writeEntries o₁ = .ok w₁) (h : amfWrite.writeEntries (o₁++o₂) = .ok w) :
    ∃ w₂, amfWrite.writeEntries o₂ = .ok w₂ ∧ w = w₁++w₂ := by
  induction o₁ generalizing w₁ w with
  | nil =>
    cases h₁
    exact ⟨w,h,rfl⟩
  | cons p o₁ ih =>
    obtain ⟨x,xs,hx,hxs,rfl⟩ := writeEntries_cons_ok_iff.mp h₁
    obtain ⟨y,ys,hy,hys,rfl⟩ := writeEntries_cons_ok_iff.mp h
    obtain rfl := Except.ok.inj (hx.symm.trans hy)
    obtain ⟨w₂,hw₂,rfl⟩ := ih hxs hys
    exact ⟨w₂,hw₂,by simp⟩

/-- Short keys begin with a zero byte, and so does the end of an object. -/
theorem writeEntries_head {w : List UInt8} (hnext : ∀ p ∈ o.head?, p.1.length < 2^8)
    (h : amfWrite.writeEntries o = .ok w) (after : List UInt8) :
    ∃ t, w++(amfWriteKey []++after) = amf0Number::t := by
  cases o with
  | nil =>
    cases h
    exact ⟨_,rfl⟩
  | cons p o =>
    have hp := hnext p rfl
    obtain ⟨x,ws,-,-,rfl⟩ := writeEntries_cons_ok_iff.mp h
    have hzero : p.1.length/256 = 0 := Nat.div_eq_of_lt hp
    rw [amfWriteKey,toBe,toBe,toBe,hzero]
    exact ⟨_,rfl⟩

theorem sorted_collect (items : List Item) : OrderedMap.Sorted (collect items []) := by
  rw [collect_eq]
  exact OrderedMap.sorted_foldl_insert OrderedMap.sorted_nil _

theorem loadMembers_number {items : List Item} (hreads : ReadsItems load items)
    (hkeys : ∀ i ∈ items, KeyOk i.key) (hkey : KeyOk key)
    (hnew : OrderedMap.find key (collect items []) = none)
    (hnumber : ∀ v d', load dec' = .ok (v,d') → ∃ x, v = .number x)
    {fuel : ℕ} (hfuel : items.length < fuel) (hv : dec.version = 0)
    (ht : Took dec (items.flatMap Item.wire++amfWriteKey key) dec') {d : Decoder}
    (h : loadMembers load fuel dec = .ok (o',d)) :
    ∃ x, OrderedMap.find key o' = some (.number x) := by
  obtain ⟨m,rfl⟩ : ∃ m, fuel = items.length+(m+1) := ⟨fuel-items.length-1,by omega⟩
  obtain ⟨e,he,hk⟩ := took_append_iff.mp ht
  have hread : amfLoadKey e = .ok (key,dec') := amfLoadKey_ok_iff.mpr ⟨hkey.2,hk⟩
  obtain ⟨⟨o,f⟩,hentries,h⟩ := bind_ok_iff.mp h
  obtain ⟨⟨b,g⟩,-,h⟩ := bind_ok_iff.mp h
  simp only at h
  split_ifs at h
  cases h
  rw [loadEntries_items hreads hkeys _ hv he,loadEntries,hread] at hentries
  simp only [bind,Except.bind,if_neg hkey.1] at hentries
  obtain ⟨⟨v,d'⟩,hvalue,hentries⟩ := bind_ok_iff.mp hentries
  obtain ⟨x,rfl⟩ := hnumber v d' hvalue
  exact ⟨x,loadEntries_find (OrderedMap.sorted_insert key _ (sorted_collect items))
    (OrderedMap.find_insert_self hnew) hentries⟩

/-- The metadata with an undefined value that the server sends on are never read back: the value
turns into a number, or nothing is accepted. -/
theorem amfLoadEcma_undefined {o₁ o₂ : AmfObject} {w after : List UInt8} (n : ℕ)
    (hplain : Plain (.object o₁)) (hkey : KeyOk key) (hnew : OrderedMap.find key o₁ = none)
    (hnext : ∀ p ∈ o₂.head?, p.1.length < 2^8)
    (hw : amfWriteEcma (o₁++(key,.undefined)::o₂) = .ok w)
    (h : amfLoadEcma (w.length+1+n) ⟨w++after,0,0⟩ = .ok (o',dec')) :
    ∃ x, OrderedMap.find key o' = some (.number x) := by
  obtain ⟨ws,hws,hw⟩ := bind_ok_iff.mp hw
  cases hplain with
  | object hsorted hkeys hvalues =>
  obtain ⟨items,hitems,hform,rfl⟩ :=
    writeEntries_items hsorted hkeys (fun p hp => amfWrite_form (hvalues p hp))
  obtain ⟨_,hw₂,rfl⟩ := writeEntries_append hitems hws
  obtain ⟨_,w₃,hx,hw₃,rfl⟩ := writeEntries_cons_ok_iff.mp hw₂
  rw [amfWrite,Except.ok.injEq] at hx
  obtain ⟨t,ht⟩ := writeEntries_head hnext hw₃ ([amf0ObjectEnd]++after)
  obtain ⟨v,hv⟩ : ∃ v, v = items.flatMap Item.wire++amfWriteKey key := ⟨_,rfl⟩
  have hwhole : w++after = (amf0EcmaArray::(toBe 4 0++v))++amf0Number::t := by
    rw [← ht,hv,← Except.ok.inj hw,← hx]
    simp
  have hlen : (members items).length ≤ w.length := by
    rw [← Except.ok.inj hw]
    simp only [members,List.length_cons,List.length_append]
    omega
  have hitems_lt := length_le_members items
  have hreads : ReadsItems (amfLoad (w.length+1+n)) items := by
    intro i hi a b ha hb
    have hbytes := length_bytes_lt hi
    exact amfLoad_complete (hform.value i hi) (by omega) ha hb
  have hbegin := took_start (amf0EcmaArray::(toBe 4 0++v)) (amf0Number::t) 0
  have hpeek : peek ⟨w++after,(amf0EcmaArray::(toBe 4 0++v)).length,0⟩ = .ok amf0Number :=
    peek_ok_iff.mpr ⟨t,by rw [hwhole,Decoder.rest,List.drop_left]⟩
  rw [← hwhole,hv] at hbegin
  obtain ⟨d,hd,hkeyed⟩ := (took_append_iff (v:=amf0EcmaArray::toBe 4 0)).mp hbegin
  rw [amfLoadEcma,loadEcmaWith_eq rfl (length_toBe 4 0) _ hd] at h
  refine loadMembers_number hreads hform.key hkey hnew ?_ (by omega) hd.version hkeyed h
  intro v d' hread
  exact amfLoad_number rfl (hv ▸ hpeek) hread

/-- Here the number is made of the next key and nothing is left to complain about. -/
theorem amfLoadEcma_undefined_garbled :
    ∃ x, OrderedMap.find [97]
      ([([97],.number 0x0762626262626262),([98],.boolean false),([99],.null)] : AmfObject) =
        some (.number x) :=
  have hwrite : amfWriteEcma
      ([]++([97],.undefined)::[([98,98,98,98,98,98,98],.number 0x0162010000016305)]) =
        .ok [8,0,0,0,0,0,1,97,0,7,98,98,98,98,98,98,98,0,1,98,1,0,0,1,99,5,0,0,9] := by rfl
  have hload : amfLoadEcma (29+1+0)
      ⟨[8,0,0,0,0,0,1,97,0,7,98,98,98,98,98,98,98,0,1,98,1,0,0,1,99,5,0,0,9]++[],0,0⟩ =
        .ok ([([97],.number 0x0762626262626262),([98],.boolean false),([99],.null)],
          ⟨[8,0,0,0,0,0,1,97,0,7,98,98,98,98,98,98,98,0,1,98,1,0,0,1,99,5,0,0,9],29,0⟩) := by
    rfl
  amfLoadEcma_undefined 0 (.object List.Pairwise.nil (by simp) (by simp)) (by simp [KeyOk]) rfl
    (by simp) hwrite hload

end

/-- A value without an ECMA array in it, which `amf_write` asserts not to have. -/
inductive Loaded : AMFValue → Prop
  | string (s : List UInt8) : Loaded (.string s)
  | number (n : UInt64) : Loaded (.number n)
  | integer (i : ℤ) : Loaded (.integer i)
  | boolean (b : Bool) : Loaded (.boolean b)
  | object {o : AmfObject} (h : ∀ p ∈ o, Loaded p.2) : Loaded (.object o)
  | null : Loaded .null
  | undefined : Loaded .undefined

theorem writeEntries_loaded {o : AmfObject} (h : ∀ p ∈ o, ∃ w, amfWrite p.2 = .ok w) :
    ∃ w, amfWrite.writeEntries o = .ok w := by
  induction o with
  | nil => exact ⟨[],rfl⟩
  | cons p o ih =>
    obtain ⟨w,hw⟩ := h p List.mem_cons_self
    obtain ⟨ws,hws⟩ := ih (fun q hq => h q (List.mem_cons_of_mem p hq))
    exact ⟨_,writeEntries_cons_ok_iff.mpr ⟨w,ws,hw,hws,rfl⟩⟩

theorem amfWrite_loaded {v : AMFValue} (h : Loaded v) : ∃ w, amfWrite v = .ok w := by
  induction h with
  | object _ ih =>
    obtain ⟨w,hw⟩ := writeEntries_loaded ih
    rw [amfWrite,hw]
    exact ⟨_,rfl⟩
  | _ => exact ⟨_,by rw [amfWrite]⟩

section

variable {load : Decoder → Except Exn (AMFValue × Decoder)} {dec dec' : Decoder} {fuel : ℕ}
  {o : AmfObject}

theorem loadEntries_loaded (hload : ∀ d v d', load d = .ok (v,d') → Loaded v)
    {acc : AmfObject} (hacc : ∀ p ∈ acc, Loaded p.2)
    (h : loadEntries load fuel acc dec = .ok (o,dec')) : ∀ p ∈ o, Loaded p.2 := by
  induction fuel generalizing acc dec with
  | zero => cases h
  | succ fuel ih =>
    obtain ⟨⟨key,d⟩,-,h⟩ := bind_ok_iff.mp h
    simp only at h
    split_ifs at h
    · cases h
      exact hacc
    · obtain ⟨⟨v,e⟩,hv,h⟩ := bind_ok_iff.mp h
      refine ih ?_ h
      intro p hp
      rcases OrderedMap.mem_insert hp with rfl | hp
      · exact hload d v e hv
      · exact hacc p hp

theorem loadMembers_loaded (hload : ∀ d v d', load d = .ok (v,d') → Loaded v)
    (h : loadMembers load fuel dec = .ok (o,dec')) : ∀ p ∈ o, Loaded p.2 := by
  obtain ⟨⟨o',d⟩,hentries,h⟩ := bind_ok_iff.mp h
  obtain ⟨⟨b,e⟩,-,h⟩ := bind_ok_iff.mp h
  simp only at h
  split_ifs at h
  cases h
  exact loadEntries_loaded hload (by simp) hentries

theorem loadObjectWith_loaded (hload : ∀ d v d', load d = .ok (v,d') → Loaded v)
    (h : loadObjectWith load fuel dec = .ok (o,dec')) : ∀ p ∈ o, Loaded p.2 := by
  obtain ⟨⟨b,d⟩,-,h⟩ := bind_ok_iff.mp h
  simp only at h
  split_ifs at h
  exact loadMembers_loaded hload h

theorem loadEcmaWith_loaded (hload : ∀ d v d', load d = .ok (v,d') → Loaded v)
    (h : loadEcmaWith load fuel dec = .ok (o,dec')) : ∀ p ∈ o, Loaded p.2 := by
  obtain ⟨⟨b,d⟩,-,h⟩ := bind_ok_iff.mp h
  simp only at h
  split_ifs at h
  exact loadMembers_loaded hload h

theorem amfLoad_loaded {v : AMFValue} (h : amfLoad fuel dec = .ok (v,dec')) : Loaded v := by
  induction fuel generalizing dec v dec' with
  | zero => cases h
  | succ fuel ih =>
    have hstring {x : Except Exn (List UInt8 × Decoder)}
        (h : x.map (Prod.map .string id) = .ok (v,dec')) : Loaded v := by
      obtain ⟨p,-,h⟩ := map_ok_iff.mp h
      cases h
      exact .string p.1
    have hnumber {x : Except Exn (UInt64 × Decoder)}
        (h : x.map (Prod.map .number id) = .ok (v,dec')) : Loaded v := by
      obtain ⟨p,-,h⟩ := map_ok_iff.mp h
      cases h
      exact .number p.1
    have hobject (h : (loadObjectWith (amfLoad fuel) fuel dec).map (Prod.map .object id) =
        .ok (v,dec')) : Loaded v := by
      obtain ⟨p,hp,h⟩ := map_ok_iff.mp h
      cases h
      exact .object (loadObjectWith_loaded (fun _ _ _ => ih) hp)
    have hecma (h : (loadEcmaWith (amfLoad fuel) fuel dec).map (Prod.map .object id) =
        .ok (v,dec')) : Loaded v := by
      obtain ⟨p,hp,h⟩ := map_ok_iff.mp h
      cases h
      exact .object (loadEcmaWith_loaded (fun _ _ _ => ih) hp)
    obtain ⟨type,-,h⟩ := bind_ok_iff.mp h
    split_ifs at h
    · exact hstring h
    · exact hnumber h
    · obtain ⟨p,-,h⟩ := map_ok_iff.mp h
      cases h
      exact .integer _
    · cases h
      exact .boolean _
    · cases h
      exact .boolean _
    · exact hobject h
    · exact hecma h
    · cases h
      exact .null
    · cases h
      exact .undefined
    · exact hstring h
    · exact hnumber h
    · obtain ⟨p,-,h⟩ := map_ok_iff.mp h
      cases h
      exact .boolean p.1
    · exact hobject h
    · exact hecma h
    · cases h
      exact .null
    · cases h
      exact .undefined

end

end Amf
end PcEnv
