import LuaDag.MacroBook

/-! What the consensus code relies on in its external primitives. -/
namespace LuaDag

/-- Checkpoint hashes do not collide. -/
def HashInjective (cr : Crypto) : Prop :=
  ∀ h e p r h' e' p' r',
    (MacroFin.build cr h e p r).hash = (MacroFin.build cr h' e' p' r').hash →
    h = h' ∧ e = e' ∧ p = p' ∧ r = r'

/-- No checkpoint hashes to zero, which is the parent of the first one. -/
def HashNonzero (cr : Crypto) : Prop :=
  ∀ h e p r, (MacroFin.build cr h e p r).hash ≠ Hash32.zero

/-- An aggregate verifies only if every listed key signed the message. -/
def SoundAggregates (cr : Crypto) : Prop :=
  ∀ pks dst msg sig, cr.verifyAggregate pks dst msg sig = true →
    ∀ pk ∈ pks, ∃ s, cr.verify pk dst msg s = true

/-- Valid signatures on one message aggregate to one that verifies. -/
def CompleteAggregates (cr : Crypto) : Prop :=
  ∀ pks sigs dst msg agg, pks ≠ [] →
    List.Forall₂ (fun pk sig => cr.verify pk dst msg sig = true) pks sigs →
    cr.aggregateSigs sigs = some agg → cr.verifyAggregate pks dst msg agg = true

/-- A valid signature can be aggregated. -/
def AggregatesSingle (cr : Crypto) : Prop :=
  ∀ pk dst msg sig, cr.verify pk dst msg sig = true → ∃ agg, cr.aggregateSigs [sig] = some agg

/-- Valid signatures on one message aggregate, and the aggregate verifies under their keys in
any order. -/
def AggregatesAnyOrder (cr : Crypto) : Prop :=
  ∀ (votes : List (PublicKey × BlsSig)) (pks : List PublicKey) dst msg, votes ≠ [] →
    (∀ vote ∈ votes, cr.verify vote.1 dst msg vote.2 = true) → pks.Perm (votes.map (·.1)) →
    ∃ agg, cr.aggregateSigs (votes.map (·.2)) = some agg ∧
      cr.verifyAggregate pks dst msg agg = true

/-- Vertices of one author for different rounds do not collide. -/
def RoundsHashApart (cr : Crypto) : Prop :=
  ∀ v w : Vertex, v.author = w.author → contentHash cr v = contentHash cr w → v.round = w.round

/-- Nor do vertices for different rounds, whoever the authors are, or of different authors. -/
def VerticesHashApart (cr : Crypto) : Prop :=
  ∀ v w : Vertex, contentHash cr v = contentHash cr w → v.round = w.round ∧ v.author = w.author

theorem VerticesHashApart.rounds {cr : Crypto} (h : VerticesHashApart cr) : RoundsHashApart cr :=
  fun v w _ heq => (h v w heq).1

/-- Micro checkpoint hashes do not collide. -/
def CheckpointsInjective (cr : Crypto) : Prop :=
  ∀ o o' : List Hash32, Bullshark.checkpointHashFromLinearization cr o =
    Bullshark.checkpointHashFromLinearization cr o' → o = o'

/-- Slots of a wave under different beacons, or of different validators, do not collide. -/
def SlotsInjective (cr : Crypto) : Prop :=
  ∀ beacon wave id beacon' id', Bullshark.sortitionBeta cr beacon wave id =
    Bullshark.sortitionBeta cr beacon' wave id' → beacon = beacon' ∧ id = id'

end LuaDag
