import PcEnv.Recorder

/-! The clips that `pullSteamLoop` hands over: where they begin, that they are contiguous, and
whether they end. -/
namespace PcEnv
namespace RtspClient

open Runs

/-- What an upload has taken and what its stream still holds, `befor` followed by `after`. -/
def clipOf (s : Client) (u : Upload) : List FrameData :=
  match s.streams[u.stream]? with
  | some b => u.taken++b.befor.content++b.after.content
  | none => u.taken

def decided : Option Stage → Bool
  | some .toDump | some .first | some .upload => true
  | _ => false

def pending (s : Client) : List FrameData :=
  match deref s with
  | .ok (_,b) => b.befor.content++b.after.content
  | .error _ => []

def clips (s : Client) : List (List FrameData) :=
  s.uploads.map (clipOf s)++if decided (s.pc.map Prod.fst) then [pending s] else []

def oldest (s : Client) : Option FrameData :=
  match deref s with
  | .ok (_,b) => b.befor.content.head?
  | .error _ => none

def KeyFirst (clip : List FrameData) : Prop := ∃ f, clip.head? = some f ∧ isKey f.flags = true

/-- The packets of every upload are a contiguous run of those received, from a key frame on. -/
def ClipsOk (s : Client) : Prop :=
  ∀ u ∈ s.uploads, clipOf s u <:+: frames s.received ∧ KeyFirst (clipOf s u)

/-- A step that looks at the oldest packet finds a key frame if the size of that is odd. -/
def OddIsKey (s : Client) : Event → Prop
  | .pull => s.pc.map Prod.fst = some .geti → ∀ f ∈ oldest s, f.data.length % 2 = 1 →
      isKey f.flags = true
  | _ => True

instance (s : Client) : DecidablePred (OddIsKey s)
  | .pull => inferInstanceAs (Decidable (_ → _))
  | .packet _ | .trigger | .upload _ _ => .isTrue trivial

variable {maxSize mMax : ℕ} {s t : Client} {b : BAStream}

def heads (s : Client) : List (Option FrameData) := (clips s).map List.head?

theorem One.clipOf (h : One maxSize mMax s b) (reader : Option BAStream.ReadAt)
    (taken : List FrameData) :
    clipOf s ⟨0,reader,taken⟩ = taken++b.befor.content++b.after.content := by
  simp [RtspClient.clipOf,h.streams]

theorem One.pending (h : One maxSize mMax s b) :
    pending s = b.befor.content++b.after.content := by
  simp [RtspClient.pending,h.deref]

theorem One.oldest (h : One maxSize mMax s b) : oldest s = b.befor.content.head? := by
  simp [RtspClient.oldest,h.deref]

theorem heads_nil (hu : s.uploads = []) (hd : decided (s.pc.map Prod.fst) = false) :
    heads s = [] := by
  simp [heads,clips,hu,hd]

theorem heads_decided (h : One maxSize mMax s b) (hu : s.uploads = [])
    (hd : decided (s.pc.map Prod.fst) = true) :
    heads s = [(b.befor.content++b.after.content).head?] := by
  simp [heads,clips,hu,hd,h.pending]

theorem heads_dump {reader : Option BAStream.ReadAt} {taken : List FrameData}
    (h : One maxSize mMax s b) (hu : s.uploads = [⟨0,reader,taken⟩])
    (hd : Dumping (s.pc.map Prod.fst)) :
    heads s = [(taken++b.befor.content++b.after.content).head?] := by
  have hnone : decided (s.pc.map Prod.fst) = false := by
    cases hpc : s.pc.map Prod.fst with
    | none => rfl
    | some stage =>
      rw [hpc] at hd
      cases stage <;> first | rfl | exact hd.elim
  simp [heads,clips,hu,hnone,h.clipOf]

theorem odd_of_ne {stage : Stage} {pkt : AVPacket} (hpc : s.pc = some (stage,pkt))
    (h : stage ≠ .geti) : OddIsKey s .pull := by
  intro hgeti
  simp [hpc] at hgeti
  exact (h hgeti).elim

def HeadStep (s t : Client) : Prop :=
  (heads t = heads s ∧ OddIsKey s .pull) ∨
  ∃ f, s.pc.map Prod.fst = some .geti ∧ oldest s = some f ∧ f.data.length % 2 = 1 ∧
    heads s = [] ∧ heads t = [some f]

theorem WroteAfter.head {b' : BAStream} {pkt : AVPacket} (h : WroteAfter b b' pkt)
    {front : List FrameData} (hne : front++b.after.content ≠ []) :
    (front++b'.after.content).head? = (front++b.after.content).head? := by
  obtain ⟨more,hmore⟩ := h.content
  rw [← hmore,← List.append_assoc]
  exact List.head?_append_of_ne_nil _ hne

theorem record_heads {stage : Stage} {pkt : AVPacket} (hone : One maxSize mMax s b)
    (hu : s.uploads = []) (ha : b.after.q = []) (hpc : s.pc = some (stage,pkt))
    (hrec : Recording b s.status (some stage)) (ht : pull maxSize mMax s pkt stage = .ok t) :
    HeadStep s t := by
  have stage_eq : s.pc.map Prod.fst = some stage := by rw [hpc]; rfl
  have quiet (hne : stage ≠ .geti) (hs : decided (some stage) = false) (hut : t.uploads = [])
      (hd : decided (t.pc.map Prod.fst) = false) : HeadStep s t :=
    Or.inl ⟨by rw [heads_nil hu (by rw [stage_eq]; exact hs),heads_nil hut hd],odd_of_ne hpc hne⟩
  have keep {t : Client} {b' : BAStream} (hs : decided (some stage) = true) (hne : stage ≠ .geti)
      (hone' : One maxSize mMax t b') (hut : t.uploads = [])
      (hd : decided (t.pc.map Prod.fst) = true)
      (hhead : (b'.befor.content++b'.after.content).head? =
        (b.befor.content++b.after.content).head?) : HeadStep s t := by
    refine Or.inl ⟨?_,odd_of_ne hpc hne⟩
    rw [heads_decided hone hu (by rw [stage_eq]; exact hs),heads_decided hone' hut hd,hhead]
  cases stage with
  | testStart | testCycw | testGeti =>
    cases ht
    refine quiet (by simp) rfl hu ?_
    simp only [Option.map_some]
    split_ifs <;> rfl
  | created =>
    cases ht
    exact quiet (by simp) rfl hu rfl
  | cycw | again =>
    simp only [pull] at ht
    split at ht
    · next u hwrite =>
      cases ht
      obtain ⟨b',rfl,-⟩ := hone.writeBefor hwrite
      exact quiet (by simp) rfl hu rfl
    · cases ht
  | geti =>
    simp only [pull,hone.deref] at ht
    cases ht
    by_cases hkey : isKey b.getRiFlags = true
    · obtain ⟨f,hf,hodd⟩ := BAStream.isKey_getRiFlags.mp hkey
      refine Or.inr ⟨f,stage_eq,by rw [hone.oldest,hf],hodd,heads_nil hu (by rw [stage_eq]; rfl),?_⟩
      have hone' : One maxSize mMax { s with pc := some (.toDump,pkt) } b :=
        hone.step hone.streams rfl rfl rfl rfl rfl (Or.inr ⟨_,_,pkt,hpc,rfl⟩)
      rw [if_pos hkey,heads_decided hone' hu rfl]
      simp [MTQueue.content,ha] at hf ⊢
      exact hf
    · refine Or.inl ⟨?_,?_⟩
      · rw [heads_nil hu (by rw [stage_eq]; rfl),if_neg hkey]
        exact heads_nil hu rfl
      · intro _ f hf hodd
        rw [hone.oldest] at hf
        exact (hkey (BAStream.isKey_getRiFlags.mpr ⟨f,hf,hodd⟩)).elim
  | toDump =>
    cases ht
    refine keep rfl (by simp) (hone.step hone.streams rfl rfl rfl rfl rfl ?_) hu rfl rfl
    exact Or.inr ⟨_,_,pkt,hpc,rfl⟩
  | first =>
    simp only [pull] at ht
    split at ht
    · next u done hwrite =>
      cases ht
      obtain ⟨b',writes,rfl,-,hwrote⟩ := hone.wroteAfter hwrite
      refine keep rfl (by simp) (hwrote.one hone rfl rfl rfl ?_) hu rfl ?_
      · exact Or.inr ⟨_,_,pkt,hpc,rfl⟩
      · rw [hwrote.befor]
        exact hwrote.head (List.append_ne_nil_of_left_ne_nil hrec.2 _)
    · cases ht
  | _ => exact hrec.elim

theorem dump_heads {reader : Option BAStream.ReadAt} {taken : List FrameData} {stage : Stage}
    {pkt : AVPacket} (hone : One maxSize mMax s b) (hu : s.uploads = [⟨0,reader,taken⟩])
    (hst : s.status = .dump) (hne : taken++b.befor.content++b.after.content ≠ [])
    (hpc : s.pc = some (stage,pkt)) (hdump : Dumping (some stage))
    (ht : pull maxSize mMax s pkt stage = .ok t) : HeadStep s t := by
  have hheads := heads_dump hone hu (by rw [hpc]; exact hdump)
  have same {t : Client} (hs : t.streams = s.streams) (hv : t.mVbas = s.mVbas)
      (hr : t.received = s.received) (hut : t.uploads = s.uploads)
      (hp : t.pc = none ∨ ∃ stage stage' pkt, s.pc = some (stage,pkt) ∧ t.pc = some (stage',pkt))
      (hd : Dumping (t.pc.map Prod.fst)) : heads t = heads s := by
    have hone' : One maxSize mMax t b := hone.step (hs.trans hone.streams) hv hr rfl rfl rfl hp
    rw [hheads,heads_dump hone' (hut.trans hu) hd]
  cases stage with
  | testStart | testCycw | testGeti =>
    cases ht
    refine Or.inl ⟨same rfl rfl rfl rfl (Or.inr ⟨_,_,pkt,hpc,rfl⟩) ?_,odd_of_ne hpc (by simp)⟩
    rw [hst]
    trivial
  | testDump =>
    cases ht
    rw [if_pos hst]
    exact Or.inl ⟨same rfl rfl rfl rfl (Or.inr ⟨_,_,pkt,hpc,rfl⟩) trivial,odd_of_ne hpc (by simp)⟩
  | dump =>
    simp only [pull] at ht
    split at ht
    · next u done hwrite =>
      cases ht
      obtain ⟨b',writes,rfl,-,hwrote⟩ := hone.wroteAfter hwrite
      rw [if_neg (intOfBool_nonneg done).not_gt]
      have hone' : One maxSize mMax { s with streams := [b'], writes := writes, pc := none } b' :=
        hwrote.one hone rfl rfl rfl (Or.inl rfl)
      refine Or.inl ⟨(heads_dump hone' hu trivial).trans ?_,odd_of_ne hpc (by simp)⟩
      rw [hheads,hwrote.befor,hwrote.head hne]
    · cases ht
  | _ => exact hdump.elim

theorem pull_heads {stage : Stage} {pkt : AVPacket} (h : Phase maxSize mMax s)
    (hpc : s.pc = some (stage,pkt)) (ht : pull maxSize mMax s pkt stage = .ok t) :
    HeadStep s t := by
  cases h with
  | fresh _ _ hu _ hst =>
    rcases hst with ⟨-,hnone,-⟩ | ⟨pkt',-,⟨hstart,htest⟩ | hcreate⟩
    · simp [hpc] at hnone
    · rw [hpc] at htest
      cases htest
      cases ht
      refine Or.inl ⟨?_,odd_of_ne hpc (by simp)⟩
      rw [heads_nil hu (by rw [hpc]; rfl),if_pos hstart]
      exact heads_nil hu rfl
    · rw [hpc] at hcreate
      cases hcreate
      cases ht
      refine Or.inl ⟨?_,odd_of_ne hpc (by simp)⟩
      rw [heads_nil hu (by rw [hpc]; rfl)]
      exact heads_nil hu rfl
  | record b hone hu ha _ hrec _ =>
    rw [hpc] at hrec
    exact record_heads hone hu ha hpc hrec ht
  | upload b pkt' hone hu _ _ hup _ =>
    rw [hpc] at hup
    cases hup
    simp only [pull,hone.deref] at ht
    cases ht
    have hone' : One maxSize mMax
        { s with uploads := s.uploads++[⟨0,none,[]⟩], pc := none } b :=
      hone.step hone.streams rfl rfl rfl rfl rfl (Or.inl rfl)
    refine Or.inl ⟨?_,odd_of_ne hpc (by simp)⟩
    rw [heads_decided hone hu (by rw [hpc]; rfl)]
    exact heads_dump hone' (by rw [hu]; rfl) trivial
  | dump b reader taken hone hu _ _ hst hdump hc =>
    rw [hpc] at hdump
    exact dump_heads hone hu hst hc.1 hpc hdump ht

theorem upload_heads {k : ℕ} {expired : Bool} (h : Phase maxSize mMax s)
    (ht : step maxSize mMax s (.upload k expired) = .ok t) : heads t = heads s := by
  cases h with
  | fresh _ _ hu _ _ => simp [step,hu] at ht
  | record _ _ hu _ _ _ _ => simp [step,hu] at ht
  | upload _ _ _ hu _ _ _ _ => simp [step,hu] at ht
  | dump b reader taken hone hu hr _ _ hpc _ =>
    obtain ⟨b',taken',reader',hadv⟩ := upload_advanced hone hu hr ht
    have hpc' := hadv.rest.2.2.1
    rw [heads_dump hone hu hpc,heads_dump hadv.one hadv.uploads (by rw [hpc']; exact hpc),
      hadv.taken,hadv.after]

theorem heads_step {e : Event} (h : Phase maxSize mMax s) (ht : step maxSize mMax s e = .ok t) :
    heads t = heads s ∧ OddIsKey s e ∨ e = .pull ∧ HeadStep s t := by
  cases e with
  | packet pkt =>
    obtain ⟨hpc,rfl⟩ := packet_step ht
    refine Or.inl ⟨?_,trivial⟩
    simp only [heads,clips,hpc,Option.map_none,Option.map_some,decided]
    rfl
  | pull =>
    obtain ⟨stage,pkt,hpc,hpull⟩ := pull_step ht
    exact Or.inr ⟨rfl,pull_heads h hpc hpull⟩
  | trigger =>
    cases ht
    refine Or.inl ⟨?_,trivial⟩
    unfold setBAStreamStatus
    split_ifs <;> rfl
  | upload k expired => exact Or.inl ⟨upload_heads h ht,trivial⟩

def OneTrigger (maxSize mMax : ℕ) (es : List Event) : Prop :=
  ∃ es₁ es₂ s, es = es₁++.trigger::es₂ ∧ .trigger ∉ es₁ ∧ .trigger ∉ es₂ ∧
    exec (step maxSize mMax) start es₁ = .ok s ∧ s.status = .cycw

theorem along_of_no_trigger {es : List Event} (h : .trigger ∉ es) :
    Along (step maxSize mMax) TriggerOk s es := by
  have hnone : ∀ e ∈ es, e ≠ .trigger := fun e he heq => h (heq ▸ he)
  refine (along_of_mem hnone s).mono ?_
  intro u e he
  cases e with
  | trigger => exact (he rfl).elim
  | _ => trivial

theorem OneTrigger.along {es : List Event} (h : OneTrigger maxSize mMax es) :
    Along (step maxSize mMax) TriggerOk start es := by
  obtain ⟨es₁,es₂,s₁,rfl,h₁,h₂,hs₁,hst⟩ := h
  refine along_append.mpr ⟨along_of_no_trigger h₁,?_⟩
  intro u hu
  rw [hs₁] at hu
  cases hu
  exact ⟨Or.inl hst,fun _ _ => along_of_no_trigger h₂⟩

def Keyed (s : Client) : Prop := ∀ x ∈ heads s, ∃ f, x = some f ∧ isKey f.flags = true

theorem keyed_step {e : Event} (h : Phase maxSize mMax s)
    (ht : step maxSize mMax s e = .ok t) : Keyed t ↔ Keyed s ∧ OddIsKey s e := by
  have same (heq : heads t = heads s) (hodd : OddIsKey s e) : Keyed t ↔ Keyed s ∧ OddIsKey s e := by
    simp only [Keyed,heq,hodd,and_true]
  rcases heads_step h ht with ⟨heq,hodd⟩ | ⟨rfl,⟨heq,hodd⟩ | ⟨f,hpc,hold,hsize,hnil,hone⟩⟩
  · exact same heq hodd
  · exact same heq hodd
  · have hs : Keyed s := by simp [Keyed,hnil]
    have ht : Keyed t ↔ isKey f.flags = true := by simp [Keyed,hone]
    rw [ht]
    constructor
    · intro hkey
      refine ⟨hs,?_⟩
      intro _ g hg _
      rw [hold] at hg
      cases hg
      exact hkey
    · rintro ⟨-,hodd⟩
      exact hodd hpc f hold hsize

theorem keyed_run {es : List Event} (ha : Along (step maxSize mMax) TriggerOk start es)
    (hs : exec (step maxSize mMax) start es = .ok s) :
    Keyed s ↔ Along (step maxSize mMax) OddIsKey start es := by
  have hiff := exec_iff_along_of_invariant (Phase maxSize mMax)
    (fun _ _ _ h hok ht => phase_step h hok ht) (fun _ _ _ h _ ht => keyed_step h ht)
    start_phase ha hs
  rw [hiff]
  simp [Keyed,heads,clips,start,decided]

theorem Phase.contiguous (h : Phase maxSize mMax s) :
    ∀ u ∈ s.uploads, clipOf s u <:+: frames s.received := by
  intro u hmem
  cases h with
  | fresh _ _ hu _ _ => simp [hu] at hmem
  | record _ _ hu _ _ _ _ => simp [hu] at hmem
  | upload _ _ _ hu _ _ _ _ => simp [hu] at hmem
  | dump b reader taken hone hu _ _ _ _ hc =>
    obtain ⟨-,pre,post,hall,-⟩ := hc
    rw [hu,List.mem_singleton] at hmem
    subst u
    rw [hone.clipOf]
    have hbefore : frames (before s) <+: frames s.received := by
      apply List.IsPrefix.map
      cases hpc : s.pc with
      | none => rw [before_of_none hpc]
      | some x =>
        rw [before_of_some hpc]
        exact List.dropLast_prefix _
    have hinfix : taken++b.befor.content++b.after.content <:+: frames (before s) :=
      ⟨pre,post,hall.symm⟩
    exact hinfix.trans hbefore.isInfix

theorem keyed_uploads : Keyed s →
    ∀ u ∈ s.uploads, KeyFirst (clipOf s u) := by
  intro h u hu
  apply h
  simp only [heads,clips,List.map_append,List.mem_append,List.map_map]
  exact Or.inl (List.mem_map_of_mem hu)

theorem uploads_keyed (hpc : s.pc = none) (h : ∀ u ∈ s.uploads, KeyFirst (clipOf s u)) :
    Keyed s := by
  intro x hx
  simp only [heads,clips,hpc,Option.map_none,decided,Bool.false_eq_true,if_false,List.append_nil,
    List.map_map] at hx
  obtain ⟨u,hu,rfl⟩ := List.mem_map.mp hx
  exact h u hu

/-- With one trigger the clips are contiguous and begin with a key frame as long as every
oldest packet of an odd size that the loop looks at is one. -/
theorem clips_ok_iff (maxSize mMax : ℕ) (es : List Event) (s : Client)
    (h : OneTrigger maxSize mMax es) (hs : exec (step maxSize mMax) start es = .ok s) :
    (Along (step maxSize mMax) OddIsKey start es → ClipsOk s) ∧
    (s.pc = none → (ClipsOk s ↔ Along (step maxSize mMax) OddIsKey start es)) := by
  have hkeyed := keyed_run h.along hs
  have hcont := (phase_run h.along hs).contiguous
  have honly : Along (step maxSize mMax) OddIsKey start es → ClipsOk s :=
    fun ha u hu => ⟨hcont u hu,keyed_uploads (hkeyed.mpr ha) u hu⟩
  refine ⟨honly,fun hpc => ⟨?_,honly⟩⟩
  intro hok
  exact hkeyed.mp (uploads_keyed hpc (fun u hu => (hok u hu).2))

theorem uploadEvents_one : OneTrigger 9 10 uploadEvents := by
  obtain ⟨s,hs,hst⟩ : ∃ s, exec (step 9 10) start (arrive 3 1 5) = .ok s ∧ s.status = .cycw :=
    observe_eq_some.mp (by decide +kernel)
  exact ⟨arrive 3 1 5,arrive 4 0 7,s,rfl,by decide,by decide,hs,hst⟩

theorem clips_ok_iff_key : ∃ s, exec (step 9 10) start uploadEvents = .ok s ∧
    s.uploads.length = 1 ∧ ClipsOk s := by
  obtain ⟨s,hs,hu⟩ : ∃ s, exec (step 9 10) start uploadEvents = .ok s ∧ s.uploads.length = 1 :=
    observe_eq_some.mp (by decide +kernel)
  exact ⟨s,hs,hu,(clips_ok_iff 9 10 uploadEvents s uploadEvents_one hs).1 (by decide +kernel)⟩

/-- A packet of three bytes that is no key frame, a trigger, and the packet that starts the
upload. -/
def oddEvents : List Event := arrive 3 0 5++[.trigger]++arrive 4 0 7

theorem clip_without_key : ∃ s, exec (step 9 10) start oddEvents = .ok s ∧
    OneTrigger 9 10 oddEvents ∧ s.uploads.length = 1 ∧ ¬ ClipsOk s := by
  obtain ⟨s₁,hs₁,hst⟩ : ∃ s, exec (step 9 10) start (arrive 3 0 5) = .ok s ∧ s.status = .cycw :=
    observe_eq_some.mp (by decide +kernel)
  obtain ⟨s,hs,hu⟩ : ∃ s, exec (step 9 10) start oddEvents = .ok s ∧
      s.uploads.map (fun u => (clipOf s u).head?) = [some (.ofPacket (packetOf 3 0))] :=
    observe_eq_some.mp (by decide +kernel)
  have hlen := congrArg List.length hu
  rw [List.length_map] at hlen
  refine ⟨s,hs,⟨_,_,s₁,rfl,by decide,by decide,hs₁,hst⟩,hlen,?_⟩
  intro hok
  obtain ⟨u,hus⟩ := List.length_eq_one_iff.mp hlen
  obtain ⟨f,hf,hkey⟩ := (hok u (by simp [hus])).2
  simp only [hus,List.map_cons,List.map_nil,hf,List.cons.injEq,Option.some.injEq] at hu
  rw [hu.1] at hkey
  exact absurd hkey (by decide)

/-- The events `fs` are the arrival of one packet and its handling. -/
def Handles (maxSize mMax : ℕ) (s : Client) (fs : List Event) (t : Client) : Prop :=
  .trigger ∉ fs ∧ exec (step maxSize mMax) s fs = .ok t ∧ t.pc = none ∧
    t.received.length = s.received.length+1

def Exited (s : Client) : Prop :=
  ∃ i b, s.mVbas = some i ∧ s.streams[i]? = some b ∧ b.after.mIsWaitWasExited = true

/-- The next packet ends the clip, and the one after it goes to a new stream. -/
def Closes (maxSize mMax : ℕ) (s : Client) : Prop :=
  ∀ fs t, Handles maxSize mMax s fs t → t.status = .start ∧ Exited t ∧
    ∀ gs u, Handles maxSize mMax t gs u → u.streams.length = t.streams.length+1

theorem writeBefor_uploads {pkt : AVPacket} (h : writeBefor s pkt = .ok t) :
    t.uploads = s.uploads := by
  unfold writeBefor at h
  split at h
  · cases h
  · split at h <;> cases h
    rfl

theorem writeAfter_uploads {pkt : AVPacket} {done : Bool} (h : writeAfter s pkt = .ok (t,done)) :
    t.uploads = s.uploads := by
  unfold writeAfter at h
  split at h <;> cases h
  rfl

/-- An upload that has been started stays. -/
theorem uploads_step {e : Event} (ht : step maxSize mMax s e = .ok t) :
    s.uploads.length ≤ t.uploads.length := by
  cases e with
  | packet pkt =>
    obtain ⟨-,rfl⟩ := packet_step ht
    exact le_rfl
  | trigger =>
    cases ht
    unfold setBAStreamStatus
    split_ifs <;> exact le_rfl
  | upload k expired =>
    simp only [step] at ht
    split at ht
    · cases ht
    · split at ht <;> cases ht
      simp
  | pull =>
    obtain ⟨stage,pkt,-,hpull⟩ := pull_step ht
    cases stage with
    | cycw | again =>
      simp only [pull] at hpull
      split at hpull <;> cases hpull
      next hw => exact (congrArg List.length (writeBefor_uploads hw)).ge
    | first | dump =>
      simp only [pull] at hpull
      split at hpull <;> cases hpull
      next hw => exact (congrArg List.length (writeAfter_uploads hw)).ge
    | geti | upload | exitCond =>
      simp only [pull] at hpull
      split at hpull <;> cases hpull
      simp
    | _ =>
      cases hpull
      exact le_rfl

theorem dump_run {fs : List Event} (h : Phase maxSize mMax s) (hup : s.uploads ≠ [])
    (hfs : .trigger ∉ fs) (ht : exec (step maxSize mMax) s fs = .ok t) :
    Phase maxSize mMax t ∧ t.uploads ≠ [] := by
  refine exec_invariant (fun s => Phase maxSize mMax s ∧ s.uploads ≠ []) ?_ ⟨h,hup⟩
    (along_of_no_trigger hfs) ht
  rintro s e t ⟨h,hup⟩ hok ht
  refine ⟨phase_step h hok ht,?_⟩
  have hlen := uploads_step ht
  have hpos := List.length_pos_of_ne_nil hup
  exact List.ne_nil_of_length_pos (by omega)

theorem Phase.dumped (h : Phase maxSize mMax s) (hup : s.uploads ≠ []) :
    s.status = .dump ∧ ∃ b, One maxSize mMax s b := by
  cases h with
  | fresh _ _ hu _ _ => exact (hup hu).elim
  | record _ _ hu _ _ _ _ => exact (hup hu).elim
  | upload _ _ _ hu _ _ _ _ => exact (hup hu).elim
  | dump b _ _ hone _ _ _ hst _ _ => exact ⟨hst,b,hone⟩

theorem Phase.dumping (h : Phase maxSize mMax s) (hup : s.uploads ≠ []) :
    s.status = .dump ∧ s.streams.length = 1 ∧ ¬ Exited s := by
  obtain ⟨hst,b,hone⟩ := h.dumped hup
  refine ⟨hst,by simp [hone.streams],?_⟩
  rintro ⟨i,b',hi,hb',hexit⟩
  rw [hone.current] at hi
  cases hi
  simp only [hone.streams,List.getElem?_cons_zero,Option.some.injEq] at hb'
  subst b'
  rw [hone.open'] at hexit
  cases hexit

theorem Phase.handles (h : Phase maxSize mMax s) (hup : s.uploads ≠ []) (hpc : s.pc = none)
    (pkt : AVPacket) : ∃ t, Handles maxSize mMax s (.packet pkt::List.replicate 5 .pull) t := by
  obtain ⟨hst,b,hone⟩ := h.dumped hup
  have hone' : One maxSize mMax
      { s with pc := some (.dump,pkt), received := s.received++[pkt] } b :=
    ⟨hone.streams,hone.current,hone.befor,hone.after,hone.open',by
      intro stage pkt' h
      cases h
      simp [before]⟩
  rw [hst] at hone'
  rcases hone'.writeAfter pkt with ⟨-,hw⟩ | ⟨-,hw⟩
  · refine ⟨{ s with pc := none, received := s.received++[pkt] },by simp,?_,rfl,by simp⟩
    simp [List.replicate,exec,step,hpc,RtspClient.pull,hst,hw,intOfBool]
  · refine ⟨{ s with streams := [{ b with after := b.after.pushFront (.ofPacket pkt) }],
                     pc := none, received := s.received++[pkt],
                     writes := s.writes++[(0,.after)] },by simp,?_,rfl,by simp⟩
    simp [List.replicate,exec,step,hpc,RtspClient.pull,hst,hw,intOfBool]

/-- A clip never ends: `writeAfter` answers `false` when `after` is full, and `false < 0` does not
hold. -/
theorem clip_never_closes (maxSize mMax : ℕ) (es : List Event) (s : Client)
    (h : OneTrigger maxSize mMax es) (hs : exec (step maxSize mMax) start es = .ok s)
    (hup : s.uploads ≠ []) (hpc : s.pc = none) :
    ¬ Closes maxSize mMax s ∧
    ∀ fs t, .trigger ∉ fs → exec (step maxSize mMax) s fs = .ok t →
      t.status = .dump ∧ t.streams.length = 1 ∧ ¬ Exited t := by
  have hphase := phase_run h.along hs
  have hall : ∀ fs t, .trigger ∉ fs → exec (step maxSize mMax) s fs = .ok t →
      t.status = .dump ∧ t.streams.length = 1 ∧ ¬ Exited t := by
    intro fs t hfs ht
    obtain ⟨hphase',hup'⟩ := dump_run hphase hup hfs ht
    exact hphase'.dumping hup'
  refine ⟨?_,hall⟩
  intro hcloses
  obtain ⟨t,ht⟩ := hphase.handles hup hpc (packetOf 1 0)
  have hstart := (hcloses _ t ht).1
  rw [(hall _ t ht.1 ht.2.1).1] at hstart
  cases hstart

/-- The clip of a stream that holds one packet after the trigger. -/
theorem clip_never_closes_full : ∃ s, exec (step 9 1) start uploadEvents = .ok s ∧
    s.streams.map (fun b => (b.after.maxCount,b.after.content.length)) = [(1,1)] ∧
    ¬ Closes 9 1 s := by
  obtain ⟨s₁,hs₁,hst⟩ : ∃ s, exec (step 9 1) start (arrive 3 1 5) = .ok s ∧ s.status = .cycw :=
    observe_eq_some.mp (by decide +kernel)
  obtain ⟨s,hs,hx⟩ : ∃ s, exec (step 9 1) start uploadEvents = .ok s ∧
      (s.uploads.length,s.pc,s.streams.map (fun b => (b.after.maxCount,b.after.content.length))) =
        (1,none,[(1,1)]) := observe_eq_some.mp (by decide +kernel)
  have hlen : s.uploads.length = 1 := congrArg Prod.fst hx
  have hpc : s.pc = none := congrArg (fun x => x.2.1) hx
  have hup : s.uploads ≠ [] := List.ne_nil_of_length_pos (by omega)
  have hone : OneTrigger 9 1 uploadEvents :=
    ⟨arrive 3 1 5,arrive 4 0 7,s₁,rfl,by decide,by decide,hs₁,hst⟩
  exact ⟨s,hs,congrArg (fun x => x.2.2) hx,(clip_never_closes 9 1 uploadEvents s hone hs hup hpc).1⟩

/-- Two packets after that are both lost, and the clip goes on. -/
theorem full_clip_goes_on : ∃ s t, exec (step 9 1) start uploadEvents = .ok s ∧
    s.streams.map (fun b => (b.after.maxCount,b.after.q)) = [(1,[.ofPacket (packetOf 4 0)])] ∧
    exec (step 9 1) s (arrive 5 0 5++arrive 6 0 5) = .ok t ∧ t.status = .dump ∧
    t.streams.map (fun b => (b.after.maxCount,b.after.q)) = [(1,[.ofPacket (packetOf 4 0)])] ∧
    ¬ Closes 9 1 s := by
  obtain ⟨s,hs,hfull⟩ : ∃ s, exec (step 9 1) start uploadEvents = .ok s ∧
      (s.received.length,s.streams.map (fun b => (b.after.maxCount,b.after.q))) =
        (2,[(1,[.ofPacket (packetOf 4 0)])]) := observe_eq_some.mp (by decide +kernel)
  obtain ⟨u,hu,hone⟩ : ∃ u, exec (step 9 1) start (uploadEvents++arrive 5 0 5) = .ok u ∧
      (u.status,u.pc,u.received.length) = (.dump,none,3) := observe_eq_some.mp (by decide +kernel)
  obtain ⟨t,ht,htwo⟩ : ∃ t,
      exec (step 9 1) start (uploadEvents++(arrive 5 0 5++arrive 6 0 5)) = .ok t ∧
        (t.status,t.streams.map (fun b => (b.after.maxCount,b.after.q))) =
          (.dump,[(1,[.ofPacket (packetOf 4 0)])]) := observe_eq_some.mp (by decide +kernel)
  rw [exec_append_ok hs] at hu ht
  simp only [Prod.mk.injEq] at hfull hone htwo
  refine ⟨s,t,hs,hfull.2,ht,htwo.1,htwo.2,?_⟩
  intro hcloses
  have hstart := (hcloses _ u ⟨by decide,hu,hone.2.1,by omega⟩).1
  rw [hone.1] at hstart
  cases hstart

end RtspClient
end PcEnv
