import LuaDag.BorshLayout
import LuaDag.CertifiedDag

/-! The bytes that are hashed and signed. Each tag has its own kinds of messages, and what is
written under it can be told apart by its bytes; the hash of a tag and a message covers both. -/

open Layout

namespace LuaDag

/-- `borsh::to_vec` at the types that are hashed or signed; none where a number does not fit. -/
structure SigningBorsh where
  vertexBody : Round × ValidatorId × List Hash32 × List BlobRef → Option WireBytes
  checkpointFields : Height × Epoch × Hash32 × Hash32 → Option WireBytes
  checkpoint : MacroCheckpoint → Option WireBytes
  hashes : List Hash32 → Option WireBytes
  vote : Epoch × Epoch × Hash32 → Option WireBytes

def WritesApart {α : Type} (write : α → Option WireBytes) : Prop :=
  ∀ a b w, write a = some w → write b = some w → a = b

/-- Borsh writes values apart, integers of 64 bits in 8 bytes and arrays of 32 bytes as they
are. -/
structure SigningBorsh.Canonical (sb : SigningBorsh) : Prop where
  vertexBody : WritesApart sb.vertexBody
  checkpointFields : WritesApart sb.checkpointFields
  checkpoint : WritesApart sb.checkpoint
  hashes : WritesApart sb.hashes
  vote : WritesApart sb.vote
  fieldsWidth : ∀ x w, sb.checkpointFields x = some w → w.length = 8 + (8 + (32 + 32))
  checkpointWidth : ∀ x w, sb.checkpoint x = some w → w.length = 8 + (8 + (32 + (32 + 32)))

def Bytes.write (sb : SigningBorsh) : Bytes → Option WireBytes
  | .vertexBody round author parents blobs => sb.vertexBody (round, author, parents, blobs)
  | .checkpointFields height epoch parent root => sb.checkpointFields (height, epoch, parent, root)
  | .checkpoint cp => sb.checkpoint cp
  | .hashes hs => sb.hashes hs
  | .vote source target cp => sb.vote (source, target, cp)
  | .concat hs => Hash32.layout.writeAll hs
  | .idHash id h => (ValidatorId.layout.pair Hash32.layout).write (id, h)
  | .beaconSlot beacon index id =>
    (Hash32.layout.pair ((byteArray 8).pair ValidatorId.layout)).write (beacon, index, id)

namespace Dst

def text : Dst → String
  | .microQc => "lua-dag/v1/micro-qc"
  | .macroProposal => "lua-dag/v1/macro-proposal"
  | .macroVote => "lua-dag/v1/macro-vote"
  | .beacon => "lua-dag/v1/beacon"
  | .subnetAssign => "lua-dag/v1/subnet-assign"
  | .macroCheckpoint => "lua-dag/v1/macro-checkpoint"
  | .macroMicroRoot => "lua-dag/v1/macro-micro-root"
  | .macroProposerSig => "lua-dag/v1/macro-proposer-sig"
  | .vertexHash => "lua-dag/v1/vertex-hash"
  | .vertexCert => "lua-dag/v1/vertex-cert"
  | .vertexProposal => "lua-dag/v1/vertex-proposal"

def bytes (dst : Dst) : WireBytes := dst.text.toList.map fun c => BitVec.ofNat 8 c.toNat

theorem bytes_injective : Function.Injective bytes := by
  obtain ⟨all, hall⟩ : ∃ all : List Dst, all = [.microQc, .macroProposal, .macroVote, .beacon,
    .subnetAssign, .macroCheckpoint, .macroMicroRoot, .macroProposerSig, .vertexHash, .vertexCert,
    .vertexProposal] := ⟨_, rfl⟩
  have hmem : ∀ d : Dst, d ∈ all := by
    intro d
    cases d <;> simp [hall]
  have hnodup : (all.map bytes).Nodup := by
    subst hall
    decide +kernel
  intro d d' h
  exact List.inj_on_of_nodup_map hnodup (hmem d) (hmem d') h

inductive Takes : Dst → Bytes → Prop
  | microQc (hs : List Hash32) : Takes .microQc (.hashes hs)
  | macroProposal (beacon : Hash32) (height : Height) (id : ValidatorId) :
      Takes .macroProposal (.beaconSlot beacon height id)
  | macroVote (source target : Epoch) (checkpoint : Hash32) :
      Takes .macroVote (.vote source target checkpoint)
  | anchor (beacon : Hash32) (wave : Bullshark.WaveId) (id : ValidatorId) :
      Takes .beacon (.beaconSlot beacon wave id)
  | chain (prev macroQc : Hash32) : Takes .beacon (.concat [prev, macroQc])
  | subnetAssign (id : ValidatorId) (rMacro : Hash32) : Takes .subnetAssign (.idHash id rMacro)
  | checkpointHash (height : Height) (epoch : Epoch) (parent microRoot : Hash32) :
      Takes .macroCheckpoint (.checkpointFields height epoch parent microRoot)
  | checkpointSig (cp : MacroCheckpoint) : Takes .macroCheckpoint (.checkpoint cp)
  | microRoot (ring : List Hash32) : Takes .macroMicroRoot (.concat ring)
  | proposer (id : ValidatorId) (checkpoint : Hash32) :
      Takes .macroProposerSig (.idHash id checkpoint)
  | vertexHash (r : Round) (a : ValidatorId) (ps : List Hash32) (bs : List BlobRef) :
      Takes .vertexHash (.vertexBody r a ps bs)
  | vertexCert (r : Round) (a : ValidatorId) (ps : List Hash32) (bs : List BlobRef) :
      Takes .vertexCert (.vertexBody r a ps bs)
  | vertexProposal (r : Round) (a : ValidatorId) (ps : List Hash32) (bs : List BlobRef) :
      Takes .vertexProposal (.vertexBody r a ps bs)

end Dst

/- Widths. -/

theorem width_byteArray (n : ℕ) : (byteArray n).Width n := ((width_fixed n).of _).along _

theorem Hash32.width : Hash32.layout.Width 32 := (width_byteArray 32).of _

theorem ValidatorId.width : ValidatorId.layout.Width 32 := (width_byteArray 32).of _

/- Messages by their bytes. -/
section Apart
variable {sb : SigningBorsh} (hsb : sb.Canonical) {b b' : Bytes} {w : WireBytes}

theorem beaconSlot_inj {x x' : Hash32} {i i' : ℕ} {id id' : ValidatorId}
    (h : (Bytes.beaconSlot x i id).write sb = some w)
    (h' : (Bytes.beaconSlot x' i' id').write sb = some w) :
    Bytes.beaconSlot x i id = .beaconSlot x' i' id' := by
  cases write_inj h h'
  rfl

theorem idHash_inj {x x' : Hash32} {id id' : ValidatorId}
    (h : (Bytes.idHash id x).write sb = some w) (h' : (Bytes.idHash id' x').write sb = some w) :
    Bytes.idHash id x = .idHash id' x' := by
  cases write_inj h h'
  rfl

theorem concat_inj {hs hs' : List Hash32} (h : (Bytes.concat hs).write sb = some w)
    (h' : (Bytes.concat hs').write sb = some w) : Bytes.concat hs = .concat hs' :=
  congrArg Bytes.concat (Hash32.width.writeAll_inj (by decide) h h')

theorem anchor_ne_chain {x p q : Hash32} {i : ℕ} {id : ValidatorId}
    (h : (Bytes.beaconSlot x i id).write sb = some w)
    (h' : (Bytes.concat [p, q]).write sb = some w) : False := by
  have hslot := Hash32.width.pair ((width_byteArray 8).pair ValidatorId.width) _ _ h
  have hlink : w.length = 2 * 32 := Hash32.width.writeAll h'
  rw [hslot] at hlink
  exact absurd hlink (by decide)

include hsb

theorem vertexBody_inj {r r' : Round} {a a' : ValidatorId} {ps ps' : List Hash32}
    {bs bs' : List BlobRef} (h : (Bytes.vertexBody r a ps bs).write sb = some w)
    (h' : (Bytes.vertexBody r' a' ps' bs').write sb = some w) :
    Bytes.vertexBody r a ps bs = .vertexBody r' a' ps' bs' := by
  cases hsb.vertexBody _ _ w h h'
  rfl

theorem checkpointFields_ne {height : Height} {epoch : Epoch} {parent root : Hash32}
    {cp : MacroCheckpoint} (h : (Bytes.checkpointFields height epoch parent root).write sb = some w)
    (h' : (Bytes.checkpoint cp).write sb = some w) : False := by
  have hfields := hsb.fieldsWidth _ w h
  rw [hsb.checkpointWidth cp w h'] at hfields
  exact absurd hfields (by decide)

/-- Under one tag, bytes stand for one message. -/
theorem Dst.Takes.write_inj {d : Dst} (ht : d.Takes b) (ht' : d.Takes b')
    (h : b.write sb = some w) (h' : b'.write sb = some w) : b = b' := by
  cases ht with
  | microQc hs =>
    cases ht'
    exact congrArg Bytes.hashes (hsb.hashes _ _ w h h')
  | macroProposal beacon height id =>
    cases ht'
    exact beaconSlot_inj h h'
  | macroVote source target checkpoint =>
    cases ht'
    cases hsb.vote _ _ w h h'
    rfl
  | anchor beacon wave id =>
    cases ht' with
    | anchor => exact beaconSlot_inj h h'
    | chain => exact (anchor_ne_chain h h').elim
  | chain prev macroQc =>
    cases ht' with
    | anchor => exact (anchor_ne_chain h' h).elim
    | chain => exact concat_inj h h'
  | subnetAssign id rMacro =>
    cases ht'
    exact idHash_inj h h'
  | checkpointHash height epoch parent microRoot =>
    cases ht' with
    | checkpointHash =>
      cases hsb.checkpointFields _ _ w h h'
      rfl
    | checkpointSig => exact (checkpointFields_ne hsb h h').elim
  | checkpointSig cp =>
    cases ht' with
    | checkpointHash => exact (checkpointFields_ne hsb h' h).elim
    | checkpointSig => exact congrArg Bytes.checkpoint (hsb.checkpoint _ _ w h h')
  | microRoot ring =>
    cases ht'
    exact concat_inj h h'
  | proposer id checkpoint =>
    cases ht'
    exact idHash_inj h h'
  | vertexHash | vertexCert | vertexProposal =>
    cases ht'
    exact vertexBody_inj hsb h h'

end Apart

/- What a node signs. -/
section Signed
variable {cr : Crypto} {call : NodeCall} {sg : List SignReq} {acts : List Action}

theorem move_takes {c d : MacroCore} (h : Move cr call c sg acts d) :
    ∀ r ∈ sg, r.1.Takes r.2 := by
  cases h with
  | propose height cp proof hc hfirst =>
    intro r hr
    cases List.mem_singleton.mp hr
    exact .proposer _ _
  | recordVote p old locks hev hacc hpre hparent hold hroot hhash hlock =>
    intro r hr
    cases List.mem_singleton.mp hr
    exact .macroVote _ _ _
  | announce height cp subnet hc hlock =>
    intro r hr
    cases List.mem_singleton.mp hr
    exact .checkpointSig cp
  | _ => simp

theorem ownRequests_takes (ctx : HostContext) (b : VertexBook) (round : Round)
    (parents : List Hash32) : ∀ r ∈ ownRequests cr ctx b round parents, r.1.Takes r.2 := by
  intro r hr
  cases List.mem_cons.mp hr with
  | inl hfirst =>
    cases hfirst
    exact .vertexProposal _ _ _ _
  | inr hsecond =>
    cases List.mem_singleton.mp hsecond
    exact .vertexCert _ _ _ _

theorem bookMove_takes {b d : VertexBook} (h : BookMove cr call b sg acts d) :
    ∀ r ∈ sg, r.1.Takes r.2 := by
  cases h with
  | vote set p hev hset hok hpass hseen hnew =>
    intro r hr
    cases List.mem_singleton.mp hr
    exact .vertexCert _ _ _ _
  | genesis hst => exact ownRequests_takes _ _ _ _
  | propose set need certs hst hset hready => exact ownRequests_takes _ _ _ _
  | _ => simp

def TakesIf (l3 : Bool) (log : List SignReq) : Prop :=
  ∀ r ∈ log, r.1.isMacro = l3 → r.1.Takes r.2

theorem TakesIf.append {l3 : Bool} {log : List SignReq} (h : TakesIf l3 log)
    (hnew : TakesIf l3 sg) : TakesIf l3 (log ++ sg) := by
  intro r hr
  cases List.mem_append.mp hr with
  | inl hold => exact h r hold
  | inr hin => exact hnew r hin

theorem run_takes (cr : Crypto) (cfg : Config) (self : ValidatorId)
    (is : List StateMachine.Input) :
    ∀ r ∈ StateMachine.signLog cr cfg self is, r.1.Takes r.2 := by
  have hmacro : TakesIf true (StateMachine.signLog cr cfg self is) := by
    refine run_invariant (P := fun log _ _ => TakesIf true log) (fun _ => True) ?_
      (fun _ _ _ _ _ _ _ h _ => h) cfg self (by simp [TakesIf]) is (fun _ _ => trivial)
    refine fun call _ => ⟨?_, ?_⟩
    · exact fun log as c sg acts d _ hm h => h.append fun r hr _ => move_takes hm r hr
    · intro log as c sg hsg h
      refine h.append fun r hr hp => ?_
      rw [hsg r hr] at hp
      cases hp
  have hvertex : TakesIf false (StateMachine.signLog cr cfg self is) := by
    refine book_signed cr (fun _ => True) (fun log _ => TakesIf false log) ?_ ?_
      cfg self (by simp [TakesIf]) is (fun _ _ => trivial)
    · exact fun call _ log b sg acts d hm h => h.append fun r hr _ => bookMove_takes hm r hr
    · intro log b sg hsg h
      refine h.append fun r hr hp => ?_
      rw [hsg r hr] at hp
      cases hp
  intro r hr
  cases hp : r.1.isMacro with
  | true => exact hmacro r hr hp
  | false => exact hvertex r hr hp

end Signed

/-- A node signs under each tag messages of its own kinds only, and nodes never sign one string of
bytes under one tag for two messages: requests of any two runs, of one node or of two, that have
a tag and their bytes in common are the same request. -/
theorem signed_apart (sb : SigningBorsh) (hsb : sb.Canonical) (cr cr' : Crypto)
    (cfg cfg' : Config) (self self' : ValidatorId) (is is' : List StateMachine.Input)
    {r r' : SignReq} (hr : r ∈ StateMachine.signLog cr cfg self is)
    (hr' : r' ∈ StateMachine.signLog cr' cfg' self' is') :
    r.1.Takes r.2 ∧ ∀ w, r.1 = r'.1 → r.2.write sb = some w → r'.2.write sb = some w → r = r' := by
  have htakes := run_takes cr cfg self is _ hr
  refine ⟨htakes, ?_⟩
  intro w htag hw hw'
  obtain ⟨tag, msg⟩ := r
  obtain ⟨tag', msg'⟩ := r'
  dsimp only at htakes htag hw hw'
  subst htag
  have htakes' := run_takes cr' cfg' self' is' _ hr'
  exact congrArg _ (htakes.write_inj hsb htakes' hw hw')

/- Hashes. -/

def hashInput (dst : Dst) (data : WireBytes) : WireBytes := dst.bytes ++ 0 :: data

theorem hashInput_inj {d d' : Dst} {data data' : WireBytes}
    (h : hashInput d data = hashInput d' data') : d = d' ∧ data = data' := by
  have hzero : ∀ d : Dst, d.bytes.all (fun b => decide (b ≠ 0)) = true := by
    rintro (_ | _) <;> decide +kernel
  have htag : ∀ d data, (hashInput d data).takeWhile (fun b => decide (b ≠ 0)) = d.bytes := by
    intro d data
    rw [hashInput, List.takeWhile_append_of_pos (List.all_eq_true.mp (hzero d))]
    simp
  have heq : d = d' := Dst.bytes_injective (by rw [← htag d data, h, htag])
  subst heq
  exact ⟨rfl, (List.cons.inj (List.append_cancel_left h)).2⟩

inductive HashCall
  | contentHash (v : Vertex)
  | checkpoint (height : Height) (epoch : Epoch) (parent microRoot : Hash32)
  | linearization (order : List Hash32)
  | microRoot (ring : List Hash32)
  | chainBeacon (prev macroQc : Hash32)
  | sortition (beacon : Hash32) (wave : Bullshark.WaveId) (id : ValidatorId)
  | macroSortition (beacon : Hash32) (height : Height) (id : ValidatorId)
  | subnet (id : ValidatorId) (rMacro : Hash32)

namespace HashCall

def value (cr : Crypto) : HashCall → Hash32
  | contentHash v => LuaDag.contentHash cr v
  | checkpoint height epoch parent root => (MacroFin.build cr height epoch parent root).hash
  | linearization order => Bullshark.checkpointHashFromLinearization cr order
  | microRoot ring => MacroFin.microRootOfRing cr ring
  | chainBeacon prev macroQc => LuaDag.chainBeacon cr prev macroQc
  | sortition beacon wave id => Bullshark.sortitionBeta cr beacon wave id
  | macroSortition beacon height id => MacroFin.macroSortitionBeta cr beacon height id
  | subnet id rMacro => cr.blake3WithDst .subnetAssign (.idHash id rMacro)

def input : HashCall → Dst × Bytes
  | contentHash v => (.vertexHash, signingBytes v)
  | checkpoint height epoch parent root =>
    (.macroCheckpoint, .checkpointFields height epoch parent root)
  | linearization order => (.microQc, .hashes order)
  | microRoot ring => (.macroMicroRoot, .concat ring)
  | chainBeacon prev macroQc => (.beacon, .concat [prev, macroQc])
  | sortition beacon wave id => (.beacon, .beaconSlot beacon wave id)
  | macroSortition beacon height id => (.macroProposal, .beaconSlot beacon height id)
  | subnet id rMacro => (.subnetAssign, .idHash id rMacro)

theorem value_eq (cr : Crypto) (c : HashCall) :
    c.value cr = cr.blake3WithDst c.input.1 c.input.2 := by
  cases c <;> rfl

theorem takes (c : HashCall) : c.input.1.Takes c.input.2 := by
  cases c <;> constructor

end HashCall

/-- The hash of a tag and a message is that of their bytes. -/
def HashesBytes (sb : SigningBorsh) (cr : Crypto) (blake3 : WireBytes → Hash32) : Prop :=
  ∀ d b w, b.write sb = some w → cr.blake3WithDst d b = blake3 (hashInput d w)

/-- Two of the hashes that the code computes are the same only if they are the same hash of the
same arguments, or else a collision of the hash function on bytes. -/
theorem hash_collision (sb : SigningBorsh) (hsb : sb.Canonical) (cr : Crypto)
    (blake3 : WireBytes → Hash32) (h : HashesBytes sb cr blake3) (c c' : HashCall)
    {w w' : WireBytes} (hw : c.input.2.write sb = some w) (hw' : c'.input.2.write sb = some w')
    (heq : c.value cr = c'.value cr) :
    c.input = c'.input ∨ hashInput c.input.1 w ≠ hashInput c'.input.1 w' ∧
      blake3 (hashInput c.input.1 w) = blake3 (hashInput c'.input.1 w') := by
  rw [c.value_eq, c'.value_eq, h _ _ w hw, h _ _ w' hw'] at heq
  by_cases hsame : hashInput c.input.1 w = hashInput c'.input.1 w'
  · obtain ⟨htag, rfl⟩ := hashInput_inj hsame
    have htakes := c'.takes
    rw [← htag] at htakes
    exact Or.inl (Prod.ext htag (c.takes.write_inj hsb htakes hw hw'))
  · exact Or.inr ⟨hsame, heq⟩

namespace Devnet
open Borsh (u64 vec)

def derivedSigning : SigningBorsh where
  vertexBody b := Vertex.layout.write ⟨b.1, b.2.1, b.2.2.1, b.2.2.2, .zero⟩
  checkpointFields := (u64.pair (u64.pair (Hash32.layout.pair Hash32.layout))).write
  checkpoint := MacroCheckpoint.layout.write
  hashes := (vec Hash32.layout).write
  vote := (u64.pair (u64.pair Hash32.layout)).write

theorem write_apart {α : Type} (f : Layout8 α) : WritesApart f.write := fun _ _ _ => write_inj

theorem derivedSigning_canonical : derivedSigning.Canonical := by
  have hu64 : u64.Width 8 := (width_fixed 8).along _
  refine ⟨?_, write_apart _, write_apart _, write_apart _, write_apart _,
    hu64.pair (hu64.pair (Hash32.width.pair Hash32.width)),
    (hu64.pair (hu64.pair (Hash32.width.pair (Hash32.width.pair Hash32.width)))).of _⟩
  rintro ⟨r, a, ps, bs⟩ ⟨r', a', ps', bs'⟩ w h h'
  have hsame : (⟨r, a, ps, bs, .zero⟩ : Vertex) = ⟨r', a', ps', bs', .zero⟩ :=
    write_apart Vertex.layout _ _ w h h'
  cases hsame
  rfl

def firstVote : List StateMachine.Input :=
  script 1 [(0, .vertexProposalReceived (netProposal 0 0))]

def ownStart : List StateMachine.Input := [(.genesis, ports 0 0)]

def voteRequest : SignReq := (.vertexCert, signingBytes (netVertex 0 0).vertex)

theorem signed_apart_votes :
    (StateMachine.signLog netCrypto config ⟨1⟩ firstVote)[0]? =
      (StateMachine.signLog netCrypto config ⟨0⟩ ownStart)[1]? := by
  have hvote : (StateMachine.signLog netCrypto config ⟨1⟩ firstVote)[0]? = some voteRequest := by
    decide +kernel
  have hown : (StateMachine.signLog netCrypto config ⟨0⟩ ownStart)[1]? = some voteRequest := by
    decide +kernel
  obtain ⟨w, hw⟩ : ∃ w, voteRequest.2.write derivedSigning = some w :=
    Option.isSome_iff_exists.mp (by decide +kernel)
  have hsame := (signed_apart derivedSigning derivedSigning_canonical netCrypto netCrypto config
    config ⟨1⟩ ⟨0⟩ firstVote ownStart (List.mem_of_getElem? hvote)
    (List.mem_of_getElem? hown)).2 w rfl hw hw
  exact hvote.trans ((congrArg some hsame).trans hown.symm)

def byteHash (w : WireBytes) : Hash32 := ⟨Encodable.encode (w.map (·.toNat))⟩

def byteCrypto : Crypto := { netCrypto with
  blake3WithDst := fun d b =>
    (b.write derivedSigning).elim .zero fun w => byteHash (hashInput d w) }

theorem hash_collision_resealed :
    (HashCall.contentHash (netVertex 0 0).vertex).input =
      (HashCall.contentHash { (netVertex 0 0).vertex with hash := .zero }).input := by
  have hbytes : HashesBytes derivedSigning byteCrypto byteHash := by
    intro d b w hw
    simp only [byteCrypto, hw, Option.elim_some]
  obtain ⟨w, hw⟩ : ∃ w, (signingBytes (netVertex 0 0).vertex).write derivedSigning = some w :=
    Option.isSome_iff_exists.mp (by decide +kernel)
  cases hash_collision derivedSigning derivedSigning_canonical byteCrypto byteHash hbytes
    (.contentHash (netVertex 0 0).vertex)
    (.contentHash { (netVertex 0 0).vertex with hash := .zero }) hw hw rfl with
  | inl hsame => exact hsame
  | inr hcollision => exact absurd rfl hcollision.1

end Devnet
end LuaDag
