/-
# TarantoolC.Object.Overwrite — a format that is encoded over old bytes.

`tnt_object_reset` keeps the block: what is encoded next is written over what was there.  Somebody
who still reads the first bytes of the block sees the old ones as long as the new ones agree with
them and the block is not replaced.

A call may fail in the middle, because the format is refused or because memory has run out, and
`Spared` says when the old bytes are still there after that, wherever it happens: at each point of
the track where a call can fail, what has been encoded so far agrees with them, and nothing needs a
larger block.  `runFormat_spared` and `runFormat_spoils` are the two directions.

It is used for a request whose key was encoded by an earlier format and is looked at after a later
one has failed (`TarantoolC.Request.Keep`).  The old bytes are a beginning of the block; `Spared`
walks the track of the new format with them, and the two theorems are inductions over the calls,
with `Stays` for the blocks that need not grow.
-/
import TarantoolC.Object.Reject

namespace TarantoolC.Object

open MsgPack Msgpuck

/-! ## §1 — bytes over bytes.

What is read of a block whose front has been written over: the new bytes, then the old ones.  If the
new ones agree with the old there is nothing to see. -/

/-- They agree as far as both go. -/
def Agree (xs ys : Bytes) : Prop := xs <+: ys ∨ ys <+: xs

/-- A block whose first `size` bytes were replaced still starts with the old ones exactly if the new
ones agree with them. -/
theorem take_eq_iff_agree {mem old : Bytes} {size n : Nat} (hlen : mem.length = old.length)
    (hsize : size ≤ mem.length) (hdrop : mem.drop size = old.drop size) :
    mem.take n = old.take n ↔ Agree (mem.take size) (old.take n) := by
  constructor
  · intro h
    rw [← h]
    exact List.prefix_or_prefix_of_prefix (List.take_prefix _ _) (List.take_prefix _ _)
  · intro hagree
    apply List.ext_getElem?
    intro i
    by_cases hn : i < n
    · rw [List.getElem?_take_of_lt hn, List.getElem?_take_of_lt hn]
      by_cases hi : i < size
      · -- where both go, the new byte is the old one
        have hnew : i < (mem.take size).length := by rw [List.length_take]; omega
        have hold : i < (old.take n).length := by rw [List.length_take]; omega
        have heq : (mem.take size)[i]? = (old.take n)[i]? := by
          rcases hagree with h | h
          · rw [List.getElem?_eq_getElem hnew, List.getElem?_eq_getElem hold, h.getElem hnew]
          · rw [List.getElem?_eq_getElem hnew, List.getElem?_eq_getElem hold, h.getElem hold]
        rwa [List.getElem?_take_of_lt hi, List.getElem?_take_of_lt hn] at heq
      · have heq := congrArg (·[i - size]?) hdrop
        simp only [List.getElem?_drop] at heq
        rwa [show size + (i - size) = i by omega] at heq
    · rw [List.getElem?_take_eq_none (by omega), List.getElem?_take_eq_none (by omega)]

/-- The object writes into the block that held `old`, and what is behind its bytes is still the
old. -/
structure Obj.Within (o : Obj) (old : Bytes) : Prop where
  alloc : o.s.sb.alloc = old.length
  size_le : o.s.sb.size ≤ old.length
  block : ∃ mem, o.s.sb.data = .live mem ∧ mem.length = old.length ∧
    mem.drop o.s.sb.size = old.drop o.s.sb.size

/-- A call that needs no larger block stays within it. -/
theorem Obj.Within.step {o o' : Obj} {old : Bytes} (h : o.Within old) (hst : Stays o.s.sb o'.s.sb)
    (hwf : o'.s.sb.WF) (hle : o'.s.sb.size ≤ old.length) : o'.Within old := by
  obtain ⟨mem, hlive, -, hdrop⟩ := h.block
  obtain ⟨halloc, hmem⟩ := hst.block (by rw [h.alloc]; exact hle)
  obtain ⟨mem', hlive', hdrop'⟩ := hmem mem hlive
  have hsize := hst.size_le
  refine ⟨by rw [halloc, h.alloc], hle, mem', hlive', ?_, ?_⟩
  · rcases hwf.block with ⟨hnull, -⟩ | ⟨mem₁, hlive₁, hlen⟩
    · rw [hnull] at hlive'
      exact absurd hlive' (by simp)
    · rw [hlive₁] at hlive'
      obtain rfl := Block.live.inj hlive'
      rw [hlen, halloc, h.alloc]
  · rw [hdrop', show o'.s.sb.size = o.s.sb.size + (o'.s.sb.size - o.s.sb.size) by omega,
      ← List.drop_drop, hdrop, List.drop_drop]

/-- The bytes in front of the block are the old ones exactly if the object's bytes agree with
them. -/
theorem Obj.Within.take_iff {o : Obj} {old mem : Bytes} (h : o.Within old)
    (hlive : o.s.sb.data = .live mem) (n : Nat) :
    mem.take n = old.take n ↔ Agree o.bytes (old.take n) := by
  obtain ⟨mem', hlive', hlen, hdrop⟩ := h.block
  rw [hlive] at hlive'
  obtain rfl := Block.live.inj hlive'
  have hbytes : o.bytes = mem.take o.s.sb.size := by
    rw [Obj.bytes, StreamBuf.bytes, hlive]
  rw [hbytes]
  exact take_eq_iff_agree hlen (by rw [hlen]; exact h.size_le) hdrop

/-! ## §2 — where a call can fail.

For want of memory, at a call that needs more of it; or because the track says so.  At each of these
the bytes so far are what a reader would see. -/

/-- The stack array is full and can be replaced by a larger one. -/
def Track.Grows (t : Track) (op : BuildOp) : Prop :=
  (∃ kind, op = .opening kind) ∧ t.nest.levels.length = t.alloc ∧ t.alloc ≠ 128

/-- The call is refused, or it is if there is no memory for a larger stack array. -/
def Track.Fails (t : Track) (op : BuildOp) : Prop := (t.step op).1 = .refused ∨ t.Grows op

/-- Old bytes `key` at the start of a block of `alloc` bytes survive a failure of the calls,
wherever that happens. -/
def Spared (alloc : Nat) (key : Bytes) : List BuildOp → Track → Prop
  | [], _ => True
  | op :: ops, t =>
    (t.Fails op → Agree (t.nest.build packed).bytes key) ∧
      match t.step op with
      | (.goes, t') => (t'.nest.build packed).bytes.length ≤ alloc ∧ Spared alloc key ops t'
      | (.refused, _) => True
      | (.astray, _) => False

section Step

variable [Msgpuck] {A : ObjAllocator} {o : Obj} {t : Track} {c : Call} {op : BuildOp}

/-- A container that finds the stack array full, and no larger one. -/
theorem Call.exec_unstacked (ho : o.Tracks t) (hc : c.Performs op) (hgrows : t.Grows op)
    (hno : A.newStack (2 * o.stackAlloc) = none) :
    ∃ o', c.exec A o = some (-1, o') ∧ o'.s = o.s := by
  obtain ⟨⟨kind, rfl⟩, hfull, -⟩ := hgrows
  have hk : c.opens = some kind := by
    cases hc with
    | array => rfl
    | map => rfl
  rw [← ho.size, ← ho.alloc] at hfull
  rcases Call.exec_opens A ho.sane.stacked hk with ⟨hr, -⟩ | ⟨stack, alloc, hroom, -⟩
  · exact ⟨_, hr, countChild_s o⟩
  · cases hroom with
    | inPlace hlt =>
      rw [countChild_stackSize, countChild_stackAlloc] at hlt
      omega
    | grown _ _ hnew =>
      rw [countChild_stackAlloc, hno] at hnew
      exact absurd hnew (by simp)

/-- If the bytes fit, the call is served, or there is no larger stack array. -/
theorem Call.exec_served (A : ObjAllocator) (ho : o.Tracks t) (hc : c.Performs op)
    (hroom : A.toAllocator.Succeeds ∨
      ((t.step op).2.nest.build packed).bytes.length ≤ o.s.sb.alloc) :
    Serves A o t op ∨ t.Grows op ∧ ∃ o', c.exec A o = some (-1, o') ∧ o'.s = o.s := by
  by_cases hgrows : t.Grows op
  · cases hnew : A.newStack (2 * o.stackAlloc) with
    | none => exact .inr ⟨hgrows, Call.exec_unstacked ho hc hgrows hnew⟩
    | some stack => exact .inl ⟨hroom, fun _ _ _ _ => ⟨stack, hnew⟩⟩
  · refine .inl ⟨hroom, ?_⟩
    intro kind hop hfull h128
    refine absurd ⟨⟨kind, hop⟩, ?_, ?_⟩ hgrows
    · rw [← ho.size, ← ho.alloc, hfull]
    · rw [← ho.alloc]
      exact h128

/-- A stack array for every container, and no byte for its contents. -/
def noBlock : ObjAllocator := { zeroingObj with toAllocator := noMemory.toAllocator }

omit [Msgpuck] in
/-- An allocator without memory loses the block where it has to grow. -/
theorem noBlock_resize {sb : StreamBuf} (hwf : sb.WF) {n : Nat} (h : sb.alloc < sb.size + n) :
    tntSbufObjectResize noBlock.toAllocator sb n =
      some (false, { sb with data := sb.data.free }) := by
  have hold : ∃ old, sb.data.contents = some old := by
    rcases hwf.block with ⟨hnull, -⟩ | ⟨mem, hlive, -⟩
    · exact ⟨[], by rw [hnull]; rfl⟩
    · exact ⟨mem, by rw [hlive]; rfl⟩
  obtain ⟨old, hold⟩ := hold
  rw [tntSbufObjectResize, if_pos h]
  simp only [hold, bind, Option.bind_some]
  rfl

/-- Without a byte more, an opening bracket whose placeholder does not fit loses the block, ... -/
theorem Call.opening_starves (ho : o.Tracks t) {kind : Kind} (hk : c.opens = some kind)
    {t' : Track} (hstep : t.step (.opening kind) = (.goes, t'))
    (hlt : o.s.sb.alloc < (t'.nest.build packed).bytes.length) :
    ∃ o', c.exec noBlock o = some (-1, o') ∧ o'.s.sb.data = o.s.sb.data.free := by
  have hcwf : (countChild o).s.sb.WF := by rw [countChild_s]; exact ho.buf
  have hstyle : c.openingBytes o.type = kind.placeholder packed :=
    Call.openingBytes_style hk (by rw [ho.mode]; rfl)
  have hnest : t'.nest = t.nest.opened kind ∧
      ¬ (t.nest.levels.length = t.alloc ∧ t.alloc = 128) := by
    simp only [Track.step] at hstep
    split_ifs at hstep with hfull h128
    · exact absurd (Prod.mk.inj hstep).1 (by decide)
    · exact ⟨by rw [← (Prod.mk.inj hstep).2], fun h => h128 h.2⟩
    · exact ⟨by rw [← (Prod.mk.inj hstep).2], fun h => hfull h.1⟩
  have hneed : o.s.sb.alloc < o.s.sb.size + (c.openingBytes o.type).length := by
    rw [hnest.1, Nest.opened, Nest.open_build, Nest.countUp_build, List.length_append,
      ← ho.size_eq, ← hstyle] at hlt
    exact hlt
  -- the stack array has room or grows, so it is the placeholder for which there is none
  rcases Call.exec_opens noBlock ho.sane.stacked hk with ⟨-, hfull, hwhy⟩ |
    ⟨stack, alloc, hroom, hr⟩
  · refine absurd ⟨?_, ?_⟩ hnest.2
    · rw [← ho.size, ← ho.alloc, hfull]
    · rw [← ho.alloc]
      exact hwhy.resolve_right (by simp [noBlock, zeroingObj])
  · have hw : Written noBlock ((countChild o).push stack alloc kind) (c.openingBytes o.type)
        (c.exec noBlock o) := .inl hr
    have hs : ((countChild o).push stack alloc kind).s = o.s := countChild_s o
    have hshort := hw.short hcwf (noBlock_resize hcwf (by rw [countChild_s]; exact hneed))
    refine ⟨_, hshort, ?_⟩
    show ((countChild o).push stack alloc kind).s.sb.data.free = _
    rw [hs]

/-- ... and so does a closing one whose header does not fit where the placeholder stands.  That it
does not is known from a close with memory. -/
theorem containerClose_starves (ho : o.Tracks t) {rv : Int} {o₁ : Obj}
    (hexec : tntObjectContainerClose zeroingObj o = some (rv, o₁)) (hrv : 0 ≤ rv)
    (hlt : o.s.sb.alloc < o₁.s.sb.size) :
    ∃ o', tntObjectContainerClose noBlock o = some (-1, o') ∧ o'.s.sb.data = o.s.sb.data.free := by
  rcases containerClose_cases zeroingObj ho.sane.stacked with ⟨-, hr⟩ | ⟨e, hno, he, hr⟩
  · rw [hr] at hexec
    have := (Prod.mk.inj (Option.some.inj hexec)).1
    omega
  · rw [hr] at hexec
    obtain ⟨sb, data, -, -, rfl, -⟩ := writeHeader_packed (o := o.pop) ho.mode hexec (by omega)
    have hlt : o.s.sb.alloc < o.s.sb.size + packedSize e.type e.size.toNat - 1 := hlt
    have hle := ho.buf.size_le
    have hres := noBlock_resize (n := packedSize e.type e.size.toNat - 1) ho.buf (by omega)
    have hwiden : widen noBlock o.pop.s.sb e.offset (packedSize e.type e.size.toNat) =
        some (false, { o.s.sb with data := o.s.sb.data.free }) := by
      rw [widen, if_pos (by omega)]
      simp only [Obj.pop, hres, bind, Option.bind_some, Bool.not_false, if_true, pure]
    rcases containerClose_cases noBlock ho.sane.stacked with ⟨hbad, -⟩ | ⟨e', -, he', hr'⟩
    · exact absurd hbad hno
    · rw [he] at he'
      obtain rfl := Option.some.inj he'
      have hmode : o.pop.type = .packed := ho.mode
      refine ⟨o.pop.setBuf { o.s.sb with data := o.s.sb.data.free }, ?_, rfl⟩
      rw [hr', writeHeader]
      simp only [hmode, hwiden, bind, Option.bind_some, Bool.not_false, if_true, pure, Obj.setBuf]

/-- Without a byte more, a call that needs a larger block loses the one there is. -/
theorem Call.exec_starves (ho : o.Tracks t) (hc : c.Performs op) {t' : Track}
    (hstep : t.step op = (.goes, t'))
    (hlt : o.s.sb.alloc < (t'.nest.build packed).bytes.length) :
    ∃ o', c.exec noBlock o = some (-1, o') ∧ o'.s.sb.data = o.s.sb.data.free := by
  -- what the call does where there is memory
  have hfollow := Call.exec_tracks ho hc (zeroingObj_succeeds.serves o t op)
  rw [hstep] at hfollow
  obtain ⟨rv, o₁, hexec, hrv, ho₁, -, -⟩ := hfollow
  cases hc with
  | @leaf _ v hv =>
    have hcwf : (countChild o).s.sb.WF := by rw [countChild_s]; exact ho.buf
    obtain ⟨hw, hpos⟩ := Call.exec_written hv zeroingObj o
    rw [hexec] at hw
    obtain ⟨sb', hr, happ⟩ := hw.served (.inl zeroingObj_succeeds.1) hcwf hpos
    have hsize := happ.size hcwf
    rw [← ho₁.size_eq, (Prod.mk.inj (Option.some.inj hr)).2] at hlt
    rw [countChild_s] at hsize
    have hlt : o.s.sb.alloc < sb'.size := hlt
    have hshort := (Call.exec_written hv noBlock o).1.short hcwf
      (noBlock_resize hcwf (by rw [countChild_s]; omega))
    refine ⟨_, hshort, ?_⟩
    show (countChild o).s.sb.data.free = _
    rw [countChild_s]
  | array => exact Call.opening_starves ho rfl hstep hlt
  | map => exact Call.opening_starves ho rfl hstep hlt
  | close =>
    rw [← ho₁.size_eq] at hlt
    exact containerClose_starves ho hexec hrv hlt

end Step

/-! ## §3 — runs.

One induction for each direction.  The second builds the allocator that fails at the first place
where the bytes differ. -/

section Run

variable [Msgpuck] {calls : List Call} {ops : List BuildOp} {old key : Bytes}

omit [Msgpuck] in
/-- A call that fails with the buffer as it was. -/
theorem Obj.Within.of_s {o o' : Obj} (h : o.Within old) (hs : o'.s = o.s) : o'.Within old := by
  obtain ⟨halloc, hsize, hblock⟩ := h
  rw [← hs] at halloc hsize hblock
  exact ⟨halloc, hsize, hblock⟩

omit [Msgpuck] in
/-- The bytes are those of the stream. -/
theorem Obj.Tracks.bytes_of_s {o o' : Obj} {t : Track} (ho : o.Tracks t) (hs : o'.s = o.s) :
    o'.bytes = (t.nest.build packed).bytes := by
  rw [← ho.bytes, Obj.bytes, hs]
  rfl

/-- **Where the old bytes are spared, they are there after every failure**, whatever the allocator
answers.  The failure may come at any call and for any reason; at each of them the bytes that have
been written so far are those that were there. -/
theorem runFormat_spared (hp : List.Forall₂ Call.Performs calls ops) (A : Nat → ObjAllocator)
    {o o' : Obj} {t : Track} (ho : o.Tracks t) (hin : o.Within old)
    (hs : Spared old.length key ops t) (k : Nat) {result : Int} (hresult : 0 ≤ result)
    (h : runFormat A calls k result o = some (-1, o')) : o'.Within old ∧ Agree o'.bytes key := by
  induction hp generalizing o t k result with
  | nil =>
    have := (Prod.mk.inj (Option.some.inj h)).1
    omega
  | @cons c op calls ops hop _ ih =>
    obtain ⟨hagree, hrest⟩ := hs
    obtain ⟨verdict, t', hstep⟩ : ∃ verdict t', t.step op = (verdict, t') := ⟨_, _, rfl⟩
    simp only [runFormat, bind, Option.bind_eq_some_iff] at h
    obtain ⟨⟨rv, o₁⟩, hexec, h⟩ := h
    -- the failure of this call, with the buffer as it was
    have hfails : ∀ o₂, c.exec (A k) o = some (-1, o₂) → o₂.s = o.s → t.Fails op →
        o'.Within old ∧ Agree o'.bytes key := by
      intro o₂ hr hsame hfails
      rw [hexec] at hr
      obtain ⟨rfl, rfl⟩ := Prod.mk.inj (Option.some.inj hr)
      rw [if_pos rfl] at h
      obtain rfl := (Prod.mk.inj (Option.some.inj h)).2
      refine ⟨hin.of_s hsame, ?_⟩
      rw [ho.bytes_of_s hsame]
      exact hagree hfails
    have hroom : ((t.step op).2.nest.build packed).bytes.length ≤ o.s.sb.alloc := by
      rw [hstep, hin.alloc]
      cases verdict with
      | goes =>
        rw [hstep] at hrest
        exact hrest.1
      | refused =>
        rw [Track.step_stops hstep (by decide), ← ho.size_eq, ← hin.alloc]
        exact ho.buf.size_le
      | astray =>
        rw [hstep] at hrest
        exact absurd hrest id
    rcases Call.exec_served (A k) ho hop (.inr hroom) with hserves | ⟨hgrows, o₂, hr, hsame⟩
    · have hfollow := Call.exec_tracks ho hop hserves
      rw [hstep] at hfollow hrest
      cases verdict with
      | goes =>
        obtain ⟨rv', o₂, hr, hrv, ho₂, -, hstays⟩ := hfollow
        rw [hexec] at hr
        obtain ⟨rfl, rfl⟩ := Prod.mk.inj (Option.some.inj hr)
        have hne : ¬ rv = -1 := by omega
        have hle : o₁.s.sb.size ≤ old.length := by
          rw [ho₂.size_eq]
          exact hrest.1
        rw [if_neg hne] at h
        exact ih ho₂ (hin.step hstays ho₂.buf hle) hrest.2 _ (by omega) h
      | refused =>
        obtain ⟨o₂, hr, hsame⟩ := hfollow
        exact hfails o₂ hr hsame (.inl (by rw [hstep]))
      | astray => exact absurd hrest id
    · exact hfails o₂ hr hsame (.inr hgrows)

/-- **Where they are not, some failure spoils them**: the block is lost, or other bytes stand in
it. -/
theorem runFormat_spoils (hp : List.Forall₂ Call.Performs calls ops) {o : Obj} {t : Track}
    (ho : o.Tracks t) (hin : o.Within old) (hs : ¬ Spared old.length key ops t)
    (hrun : (t.run ops).1 ≠ .astray) (k : Nat) (result : Int) :
    ∃ m bad o', k ≤ m ∧
      runFormat (fun j => if j = m then bad else zeroingObj) calls k result o = some (-1, o') ∧
      (o'.s.sb.data = .freed ∨ o'.Within old ∧ ¬ Agree o'.bytes key) := by
  induction hp generalizing o t k result with
  | nil => exact absurd trivial hs
  | @cons c op calls ops hop _ ih =>
    obtain ⟨verdict, t', hstep⟩ : ∃ verdict t', t.step op = (verdict, t') := ⟨_, _, rfl⟩
    -- this call fails, with an allocator of its own
    have hnow : ∀ bad o', c.exec bad o = some (-1, o') →
        (o'.s.sb.data = .freed ∨ o'.Within old ∧ ¬ Agree o'.bytes key) →
        ∃ m bad o', k ≤ m ∧
          runFormat (fun j => if j = m then bad else zeroingObj) (c :: calls) k result o =
            some (-1, o') ∧
          (o'.s.sb.data = .freed ∨ o'.Within old ∧ ¬ Agree o'.bytes key) := by
      intro bad o' hexec hspoiled
      refine ⟨k, bad, o', Nat.le_refl k, ?_, hspoiled⟩
      simp only [runFormat, if_true, hexec, bind, Option.bind_some, pure]
    by_cases hagree : t.Fails op → Agree (t.nest.build packed).bytes key
    · rw [Spared, hstep] at hs
      rw [Track.run, hstep] at hrun
      cases verdict with
      | goes =>
        by_cases hle : (t'.nest.build packed).bytes.length ≤ old.length
        · have hfollow := Call.exec_tracks ho hop (zeroingObj_succeeds.serves o t op)
          rw [hstep] at hfollow
          obtain ⟨rv, o₁, hexec, hrv, ho₁, -, hstays⟩ := hfollow
          have hin₁ := hin.step hstays ho₁.buf (by rw [ho₁.size_eq]; exact hle)
          obtain ⟨m, bad, o', hm, hrest, hspoiled⟩ :=
            ih ho₁ hin₁ (fun h => hs ⟨hagree, hle, h⟩) hrun (k + 1) (result + rv)
          refine ⟨m, bad, o', by omega, ?_, hspoiled⟩
          have hk : ¬ k = m := by omega
          have hne : ¬ rv = -1 := by omega
          simp only [runFormat, if_neg hk, hexec, bind, Option.bind_some, if_neg hne]
          exact hrest
        · obtain ⟨o', hexec, hdata⟩ :=
            Call.exec_starves ho hop hstep (by rw [hin.alloc]; omega)
          obtain ⟨mem, hlive, -, -⟩ := hin.block
          refine hnow noBlock o' hexec (.inl ?_)
          rw [hdata, hlive]
          rfl
      | refused => exact absurd ⟨hagree, trivial⟩ hs
      | astray => exact absurd rfl hrun
    · rw [Classical.not_imp] at hagree
      obtain ⟨hfails, hdiffer⟩ := hagree
      obtain ⟨bad, o', hexec, hsame⟩ : ∃ bad o', c.exec bad o = some (-1, o') ∧ o'.s = o.s := by
        rcases hfails with hrefused | hgrows
        · have hfollow := Call.exec_tracks ho hop (zeroingObj_succeeds.serves o t op)
          obtain rfl : verdict = .refused := by
            rw [hstep] at hrefused
            exact hrefused
          rw [hstep] at hfollow
          exact ⟨zeroingObj, hfollow⟩
        · exact ⟨noMemory, Call.exec_unstacked ho hop hgrows rfl⟩
      refine hnow bad o' hexec (.inr ⟨hin.of_s hsame, ?_⟩)
      rw [ho.bytes_of_s hsame]
      exact hdiffer

end Run

end TarantoolC.Object
