import Cupcake.Lib.Word

/-! The replay detection of `xfrm_replay.c`. Sequence numbers are in host order. -/

namespace Cupcake.Xfrm

/-! ## State -/

structure ReplayState where
  seq : ℕ
  bitmap : BitVec 32

/-- What `struct xfrm_replay_state_esn` has for received packets. -/
structure ReplayEsn where
  bmpLen : ℕ
  seq : ℕ
  seqHi : ℕ
  replayWindow : ℕ
  bmp : ℕ → BitVec 32
  window_lt : replayWindow < 2 ^ 32

structure Stats where
  replayWindow : ℕ
  replay : ℕ

/-- The part of `struct xfrm_state` that replay detection uses; `esn` is `XFRM_STATE_ESN` of
`props.flags`, and `replayWindow` is `props.replay_window`. -/
structure XfrmState where
  esn : Bool
  replayWindow : ℕ
  replay : ReplayState
  replayEsn : Option ReplayEsn
  stats : Stats

/-- The three tables of functions. -/
inductive Mode where
  | legacy
  | bmp
  | esn
  deriving DecidableEq, Repr

def einval : Int := -22

def xfrmInitReplay (x : XfrmState) : Except Int Mode :=
  match x.replayEsn with
  | some r =>
    if r.replayWindow > r.bmpLen * 32 then .error einval
    else if x.esn then
      if r.replayWindow = 0 then .error einval else .ok .esn
    else .ok .bmp
  | none => .ok .legacy

/-! ## Checks -/

inductive Verdict where
  | accept
  | zero
  | tooOld
  | replayed
  deriving DecidableEq, Repr

def replayCheck (window : ℕ) (r : ReplayState) (seq : ℕ) : Verdict :=
  if window = 0 then .accept
  else if seq = 0 then .zero
  else if seq > r.seq then .accept
  else
    let diff := wsub 32 r.seq seq
    if diff ≥ window then .tooOld
    else if r.bitmap &&& (1#32 <<< diff) ≠ 0 then .replayed
    else .accept

def ReplayEsn.pos (r : ReplayEsn) : ℕ := wsub 32 r.seq 1 % r.replayWindow

def ReplayEsn.bitnr (r : ReplayEsn) (diff : ℕ) : ℕ :=
  if r.pos ≥ diff then (r.pos - diff) % r.replayWindow
  else wsub 32 r.replayWindow (diff - r.pos)

def testBit (bmp : ℕ → BitVec 32) (bitnr : ℕ) : Bool :=
  bmp (bitnr >>> 5) &&& (1#32 <<< (bitnr &&& 0x1F)) ≠ 0

def ReplayEsn.checkWindow (r : ReplayEsn) (diff : ℕ) : Verdict :=
  if diff ≥ r.replayWindow then .tooOld
  else if testBit r.bmp (r.bitnr diff) then .replayed
  else .accept

def replayCheckBmp (r : ReplayEsn) (seq : ℕ) : Verdict :=
  if r.replayWindow = 0 then .accept
  else if seq = 0 then .zero
  else if seq > r.seq then .accept
  else r.checkWindow (wsub 32 r.seq seq)

/-- `xfrm_replay_seqhi` of a state with `XFRM_STATE_ESN`. -/
def replaySeqhi (r : ReplayEsn) (seq : ℕ) : ℕ :=
  let bottom := wadd 32 (wsub 32 r.seq r.replayWindow) 1
  if r.seq ≥ wsub 32 r.replayWindow 1 then
    if seq < bottom then wadd 32 r.seqHi 1 else r.seqHi
  else if seq ≥ bottom then wsub 32 r.seqHi 1
  else r.seqHi

def replayCheckEsn (r : ReplayEsn) (seq : ℕ) : Verdict :=
  let wsize := r.replayWindow
  let top := r.seq
  let bottom := wadd 32 (wsub 32 top wsize) 1
  if wsize = 0 then .accept
  else if seq = 0 ∧ r.seqHi = 0 ∧ r.seq < wsub 32 r.replayWindow 1 then .zero
  else if top ≥ wsub 32 wsize 1 then
    if seq > top ∨ seq < bottom then .accept else r.checkWindow (wsub 32 top seq)
  else if seq > top ∧ seq < bottom then .accept
  -- `diff = ~seq + top + 1`
  else if seq ≥ bottom then r.checkWindow (wadd 32 (wadd 32 (2 ^ 32 - 1 - seq) top) 1)
  else r.checkWindow (wsub 32 top seq)

/-! ## Advancing -/

def replayAdvance (window : ℕ) (r : ReplayState) (seq : ℕ) : ReplayState :=
  if window = 0 then r
  else if seq > r.seq then
    let diff := wsub 32 seq r.seq
    ⟨seq, if diff < window then (r.bitmap <<< diff) ||| 1#32 else 1#32⟩
  else
    let diff := wsub 32 r.seq seq
    ⟨r.seq, r.bitmap ||| (1#32 <<< diff)⟩

def setBit (bmp : ℕ → BitVec 32) (bitnr : ℕ) : ℕ → BitVec 32 :=
  Function.update bmp (bitnr >>> 5) (bmp (bitnr >>> 5) ||| (1#32 <<< (bitnr &&& 0x1F)))

def clearBit (bmp : ℕ → BitVec 32) (bitnr : ℕ) : ℕ → BitVec 32 :=
  Function.update bmp (bitnr >>> 5) (bmp (bitnr >>> 5) &&& ~~~ (1#32 <<< (bitnr &&& 0x1F)))

def clearBits (window pos : ℕ) : ℕ → ℕ → (ℕ → BitVec 32) → ℕ → BitVec 32
  | 0, _, bmp => bmp
  | turns + 1, i, bmp => clearBits window pos turns (i + 1) (clearBit bmp (wadd 32 pos i % window))

def clearWords (nr : ℕ) (bmp : ℕ → BitVec 32) (i : ℕ) : BitVec 32 := if i ≤ nr then 0 else bmp i

def ReplayEsn.slide (r : ReplayEsn) (diff : ℕ) : ℕ → BitVec 32 :=
  let bmp := if diff < r.replayWindow then clearBits r.replayWindow r.pos (diff - 1) 1 r.bmp
    else clearWords ((r.replayWindow - 1) >>> 5) r.bmp
  setBit bmp (wadd 32 r.pos diff % r.replayWindow)

def replayAdvanceBmp (r : ReplayEsn) (seq : ℕ) : ReplayEsn :=
  if r.replayWindow = 0 then r
  else if seq > r.seq then { r with seq := seq, bmp := r.slide (wsub 32 seq r.seq) }
  else { r with bmp := setBit r.bmp (r.bitnr (wsub 32 r.seq seq)) }

/-- `xfrm_replay_advance_esn`; `wrap` as an `int` is positive below `2 ^ 31`. -/
def replayAdvanceEsn (r : ReplayEsn) (seq : ℕ) : ReplayEsn :=
  if r.replayWindow = 0 then r
  else
    let wrap := wsub 32 (replaySeqhi r seq) r.seqHi
    let wrapped := 0 < wrap ∧ wrap < 2 ^ 31
    if wrap = 0 ∧ seq > r.seq ∨ wrapped then
      -- `diff = ~replay_esn->seq + seq + 1`
      let diff := if wrap = 0 then wsub 32 seq r.seq
        else wadd 32 (wadd 32 (2 ^ 32 - 1 - r.seq) seq) 1
      { r with
        seq := seq
        seqHi := if wrapped then wadd 32 r.seqHi 1 else r.seqHi
        bmp := r.slide diff }
    else { r with bmp := setBit r.bmp (r.bitnr (wsub 32 r.seq seq)) }

/-! ## Packets -/

def verdict (mode : Mode) (x : XfrmState) (seq : ℕ) : Verdict :=
  match mode, x.replayEsn with
  | .legacy, _ => replayCheck x.replayWindow x.replay seq
  | .bmp, some r => replayCheckBmp r seq
  | .esn, some r => replayCheckEsn r seq
  | _, none => .zero

/-- `xfrm_replay_recheck_esn`, and the check again in the other modes; `hi` is what the packet
carries as its high half. -/
def recheck (mode : Mode) (x : XfrmState) (seq hi : ℕ) : Verdict :=
  match mode, x.replayEsn with
  | .esn, some r => if hi ≠ replaySeqhi r seq then .tooOld else replayCheckEsn r seq
  | _, _ => verdict mode x seq

def Stats.count (s : Stats) : Verdict → Stats
  | .tooOld => { s with replayWindow := wadd 32 s.replayWindow 1 }
  | .replayed => { s with replay := wadd 32 s.replay 1 }
  | _ => s

def advance (mode : Mode) (x : XfrmState) (seq : ℕ) : XfrmState :=
  match mode with
  | .legacy => { x with replay := replayAdvance x.replayWindow x.replay seq }
  | .bmp => { x with replayEsn := x.replayEsn.map (replayAdvanceBmp · seq) }
  | .esn => { x with replayEsn := x.replayEsn.map (replayAdvanceEsn · seq) }

def seqhi (mode : Mode) (x : XfrmState) (seq : ℕ) : ℕ :=
  match mode with
  | .esn => (x.replayEsn.map (replaySeqhi · seq)).getD 0
  | _ => 0

/-- A received packet: checked at once, or again after it came back from the crypto layer. -/
structure Packet where
  seq : ℕ
  hi : Option ℕ
  seq_lt : seq < 2 ^ 32

/-- A state together with the numbers accepted so far. -/
structure Run where
  x : XfrmState
  accepted : List (ℕ × ℕ)

def Packet.verdict (mode : Mode) (x : XfrmState) (pkt : Packet) : Verdict :=
  match pkt.hi with
  | none => Xfrm.verdict mode x pkt.seq
  | some hi => recheck mode x pkt.seq hi

def receive (mode : Mode) (st : Run) (pkt : Packet) : Run :=
  let x := { st.x with stats := st.x.stats.count (pkt.verdict mode st.x) }
  if pkt.verdict mode st.x = .accept then
    ⟨advance mode x pkt.seq, (seqhi mode x pkt.seq, pkt.seq) :: st.accepted⟩
  else { st with x := x }

end Cupcake.Xfrm
