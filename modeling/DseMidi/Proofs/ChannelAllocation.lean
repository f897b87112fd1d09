import Mathlib.Data.List.Forall2
import DseMidi.ChannelAllocation
import DseMidi.Proofs.Track

/-!
# DseMidi.Proofs.ChannelAllocation

**Which channel a track gets.** A percussion track gets the percussion channel. What any other
track gets depends on the tracks in front of it only by the number of those that keep a melodic
channel to themselves: the channel with that number, where the percussion channel is left out
(`melodicChannel`, `keptBefore`). The 255 channels that are left of a byte come round. This is
said of the tracks before and behind the allocation (`getElem?_allocateChannels`,
`channel_of_getElem?_allocateChannels`), and as a whole by `allocateChannels_closedForm`.

So the percussion channel goes to percussion tracks alone
(`Track.channelBehind_eq_percussionChannel_iff`). That is a matter of whole bytes. A file
keeps four bits of a channel, and in these every sixteenth of the melodic channels behind it
is the same as the percussion channel (`melodicChannel_and_eq_percussionChannel_iff`).
-/

namespace DseMidi

/-- Whether the track plays notes on a melodic channel, which is not given to another track
then. -/
def Track.keepsChannel (t : Track) : Bool :=
  !t.isPercussion && t.hasNotes

/-- The melodic channel behind `n` tracks that keep theirs. -/
def melodicChannel (n : Nat) : UInt8 :=
  if n % 255 < 9 then UInt8.ofNat (n % 255) else UInt8.ofNat (n % 255 + 1)

/-- How many of the tracks in front of number `i` keep their channels. -/
def keptBefore (tracks : List Track) (i : Nat) : Nat :=
  (tracks.take i).countP Track.keepsChannel

/-- The channel for a track behind `n` tracks that keep theirs. -/
def Track.channelBehind (t : Track) (n : Nat) : UInt8 :=
  if t.isPercussion then percussionChannel else melodicChannel n

@[simp] theorem Track.onChannel_isPercussion (t : Track) (c : UInt8) :
    (t.onChannel c).isPercussion = t.isPercussion :=
  t.onChannel_selectsProgram c percussionProgram

theorem Track.onChannel_keepsChannel (t : Track) (c : UInt8) :
    (t.onChannel c).keepsChannel = t.keepsChannel := by
  rw [keepsChannel, keepsChannel, onChannel_isPercussion, onChannel_hasNotes]

theorem Track.onChannel_channelBehind (t : Track) (c : UInt8) (n : Nat) :
    (t.onChannel c).channelBehind n = t.channelBehind n := by
  rw [channelBehind, channelBehind, onChannel_isPercussion]

/-! ### The counter -/

/-- Only the place of a melodic channel in the round matters. -/
theorem melodicChannel_mod (n : Nat) : melodicChannel (n % 255) = melodicChannel n := by
  simp only [melodicChannel, Nat.mod_mod]

theorem melodicChannel_ne_percussionChannel (n : Nat) : melodicChannel n ≠ percussionChannel := by
  have all : ∀ r : Fin 255, melodicChannel r ≠ percussionChannel := by decide +kernel
  rw [← melodicChannel_mod]
  exact all ⟨n % 255, Nat.mod_lt n (by decide)⟩

/-- The channel behind a melodic one, without the percussion channel. -/
theorem melodicChannel_succ (n : Nat) :
    (if melodicChannel n + 1 = percussionChannel then melodicChannel n + 1 + 1
      else melodicChannel n + 1) = melodicChannel (n + 1) := by
  have all : ∀ r : Fin 255, (if melodicChannel r + 1 = percussionChannel
      then melodicChannel r + 1 + 1 else melodicChannel r + 1) =
        melodicChannel ((r + 1) % 255) := by
    decide +kernel
  have hround := all ⟨n % 255, Nat.mod_lt n (by decide)⟩
  dsimp only at hround
  rw [melodicChannel_mod, Nat.mod_add_mod, melodicChannel_mod] at hround
  exact hround

/-- **One track.** A track that is not percussion moves the counter on if it plays notes. -/
theorem nextChannel_melodicChannel {t : Track} (h : t.isPercussion = false) (n : Nat) :
    nextChannel (melodicChannel n) t =
      melodicChannel (n + if t.keepsChannel then 1 else 0) := by
  have hkeeps : t.keepsChannel = t.hasNotes := by simp [Track.keepsChannel, h]
  rw [nextChannel, hkeeps]
  cases t.hasNotes with
  | false => exact if_neg (melodicChannel_ne_percussionChannel n)
  | true => exact melodicChannel_succ n

/-- **One step.** The track takes its channel, and the counter moves on if it keeps it. -/
theorem allocateChannelsFrom_cons (n : Nat) (t : Track) (tracks : List Track) :
    allocateChannelsFrom (melodicChannel n) (t :: tracks) =
      t.onChannel (t.channelBehind n) ::
        allocateChannelsFrom (melodicChannel (n + if t.keepsChannel then 1 else 0)) tracks := by
  rw [allocateChannelsFrom, Track.channelBehind]
  cases h : t.isPercussion with
  | true => simp [Track.keepsChannel, h]
  | false => simp [nextChannel_melodicChannel h]

/-- The number of a melodic channel as a whole byte. -/
theorem toNat_melodicChannel (n : Nat) :
    (melodicChannel n).toNat = if n % 255 < 9 then n % 255 else n % 255 + 1 := by
  have hround : n % 255 < 255 := Nat.mod_lt n (by decide)
  have hsize : n % 255 + 1 < UInt8.size := by
    show n % 255 + 1 < 256
    omega
  rw [melodicChannel]
  split
  · exact UInt8.toNat_ofNat_of_lt' (Nat.lt_of_succ_lt hsize)
  · exact UInt8.toNat_ofNat_of_lt' hsize

/-- Melodic channels come again after a round and not before. -/
theorem melodicChannel_eq_iff {m n : Nat} :
    melodicChannel m = melodicChannel n ↔ m % 255 = n % 255 := by
  constructor
  · intro h
    have hnat := congrArg UInt8.toNat h
    rw [toNat_melodicChannel, toNat_melodicChannel] at hnat
    split at hnat
    · split at hnat
      · exact hnat
      · omega
    · split at hnat
      · omega
      · omega
  · intro h
    rw [← melodicChannel_mod, h, melodicChannel_mod]

/-! ### All tracks -/

/-- **All tracks.** Each track is moved to the channel behind as many tracks as keep theirs in
front of it. -/
theorem getElem?_allocateChannelsFrom (n i : Nat) (tracks : List Track) :
    (allocateChannelsFrom (melodicChannel n) tracks)[i]? = tracks[i]?.map fun t =>
      t.onChannel (t.channelBehind (n + (tracks.take i).countP Track.keepsChannel)) := by
  induction tracks generalizing n i with
  | nil => rfl
  | cons first tracks ih =>
    rw [allocateChannelsFrom_cons]
    cases i with
    | zero => simp
    | succ i =>
      rw [List.getElem?_cons_succ, ih, List.getElem?_cons_succ, List.take_succ_cons,
        List.countP_cons, Nat.add_assoc, Nat.add_comm (if first.keepsChannel then 1 else 0)]

theorem getElem?_allocateChannels (tracks : List Track) (i : Nat) :
    (allocateChannels tracks)[i]? = tracks[i]?.map fun t =>
      t.onChannel (t.channelBehind (keptBefore tracks i)) := by
  have hfrom := getElem?_allocateChannelsFrom 0 i tracks
  simp only [Nat.zero_add] at hfrom
  exact hfrom

/-- The tracks that keep their channels can be counted behind the allocation as well. -/
theorem map_keepsChannel_allocateChannelsFrom (next : UInt8) (tracks : List Track) :
    (allocateChannelsFrom next tracks).map Track.keepsChannel =
      tracks.map Track.keepsChannel := by
  induction tracks generalizing next with
  | nil => rfl
  | cons t tracks ih =>
    rw [allocateChannelsFrom]
    split
    · rw [List.map_cons, List.map_cons, Track.onChannel_keepsChannel, ih]
    · rw [List.map_cons, List.map_cons, Track.onChannel_keepsChannel, ih]

theorem keptBefore_allocateChannels (tracks : List Track) (i : Nat) :
    keptBefore (allocateChannels tracks) i = keptBefore tracks i := by
  have hcount : ∀ ts : List Track,
      keptBefore ts i = ((ts.map Track.keepsChannel).take i).countP id := by
    intro ts
    rw [keptBefore, ← List.map_take, List.countP_map]
    rfl
  rw [hcount, hcount, allocateChannels, map_keepsChannel_allocateChannelsFrom]

/-- The channel of a track says how many of those in front of it keep theirs. -/
theorem channel_of_getElem?_allocateChannels {k : Nat} {tracks : List Track} {t : Track}
    (h : (allocateChannels tracks)[k]? = some t) :
    t.channel =
      t.channelBehind (((allocateChannels tracks).take k).countP Track.keepsChannel) := by
  rw [getElem?_allocateChannels] at h
  obtain ⟨first, -, rfl⟩ := Option.map_eq_some_iff.mp h
  rw [← keptBefore, keptBefore_allocateChannels, Track.onChannel_channelBehind]
  rfl

/-- Channels that are given again are the same. -/
theorem allocateChannels_allocateChannels (tracks : List Track) :
    allocateChannels (allocateChannels tracks) = allocateChannels tracks := by
  refine List.ext_getElem? ?_
  intro i
  rw [getElem?_allocateChannels, getElem?_allocateChannels, Option.map_map,
    keptBefore_allocateChannels]
  congr 1
  funext t
  rw [Function.comp_apply, Track.onChannel_channelBehind, Track.onChannel_onChannel]

/-- A track that keeps its channel is counted for every track behind it. -/
theorem keptBefore_lt {tracks : List Track} {i j : Nat} {t : Track} (ht : tracks[i]? = some t)
    (hkeeps : t.keepsChannel) (hij : i < j) : keptBefore tracks i < keptBefore tracks j := by
  have hnext : keptBefore tracks (i + 1) = keptBefore tracks i + 1 := by
    rw [keptBefore, List.take_add_one, ht, Option.toList_some, List.countP_append,
      List.countP_singleton, if_pos hkeeps, keptBefore]
  have hle : keptBefore tracks (i + 1) ≤ keptBefore tracks j :=
    (List.take_sublist_take_left hij).countP_le
  omega

/-! ### Tracks that are like each other -/

/-- Where a change of tracks neither makes nor takes away percussion and notes, it does not matter
to the channels whether it comes first. -/
theorem allocateChannelsFrom_map {f g : Track → Track}
    (hpercussion : ∀ t, (f t).isPercussion = t.isPercussion)
    (hnotes : ∀ t, (f t).hasNotes = t.hasNotes)
    (hchannel : ∀ t c, (f t).onChannel c = g (t.onChannel c)) (next : UInt8)
    (tracks : List Track) :
    allocateChannelsFrom next (tracks.map f) = (allocateChannelsFrom next tracks).map g := by
  induction tracks generalizing next with
  | nil => rfl
  | cons t tracks ih =>
    have hnext : nextChannel next (f t) = nextChannel next t := by
      rw [nextChannel, nextChannel, hnotes]
    rw [List.map_cons, allocateChannelsFrom, allocateChannelsFrom, hpercussion, hchannel, hchannel,
      hnext]
    split
    · rw [List.map_cons, ih]
    · rw [List.map_cons, ih]

@[simp] theorem Track.sort_isPercussion (t : Track) : t.sort.isPercussion = t.isPercussion :=
  t.sort_events_perm.any_eq

@[simp] theorem Track.sort_hasNotes (t : Track) : t.sort.hasNotes = t.hasNotes :=
  t.sort_events_perm.any_eq

/-! ### The percussion channel -/

/-- As a whole byte, the percussion channel is kept for percussion tracks. -/
theorem Track.channelBehind_eq_percussionChannel_iff (t : Track) (n : Nat) :
    t.channelBehind n = percussionChannel ↔ t.isPercussion := by
  rw [channelBehind]
  by_cases h : t.isPercussion
  · simp [h]
  · simp [h, melodicChannel_ne_percussionChannel]

/-- In four bits, a melodic channel of the first round is the percussion channel from the
twenty-fifth on, and that once in sixteen times. -/
theorem melodicChannel_and_eq_percussionChannel_iff {n : Nat} (h : n < 255) :
    melodicChannel n &&& 0x0F = percussionChannel ↔ 24 ≤ n ∧ n % 16 = 8 := by
  have all : ∀ r : Fin 255, melodicChannel r &&& 0x0F = percussionChannel ↔
      24 ≤ r.val ∧ r.val % 16 = 8 := by
    decide +kernel
  exact all ⟨n, h⟩

/-! ### The allocation as a whole -/

/-- What moving to a channel does to each event of a track. -/
theorem Track.forall₂_onChannel_events (t : Track) (c : UInt8) :
    List.Forall₂ (fun e e' => e'.tick = e.tick ∧ e'.message = e.message ∧
        e'.channel = if e.message.isChannelVoice then c else e.channel)
      t.events (t.onChannel c).events := by
  refine List.forall₂_map_right_iff.mpr (List.forall₂_same.mpr ?_)
  intro e _
  refine ⟨e.onChannel_tick c, e.onChannel_message c, ?_⟩
  rw [Event.onChannel]
  split
  · rfl
  · rfl

/-- **Which channel each track gets.** Percussion tracks get the percussion channel. Every other
one gets a melodic channel, which says modulo 255 how many tracks in front of it keep theirs and
leaves out the percussion channel; so tracks of one round that keep theirs have different ones.
The events of a track go along with it and are otherwise left alone. Giving channels again changes
nothing, and it does not matter whether the tracks are ordered before or after. -/
theorem allocateChannels_closedForm (tracks : List Track) :
    (allocateChannels tracks).length = tracks.length ∧
    (∀ i t, tracks[i]? = some t → ∃ t', (allocateChannels tracks)[i]? = some t' ∧
      t'.channel = (if t.selectsProgram percussionProgram then percussionChannel
        else if keptBefore tracks i % 255 < 9 then UInt8.ofNat (keptBefore tracks i % 255)
        else UInt8.ofNat (keptBefore tracks i % 255 + 1)) ∧
      (t'.channel = percussionChannel ↔ t.selectsProgram percussionProgram) ∧
      List.Forall₂ (fun e e' => e'.tick = e.tick ∧ e'.message = e.message ∧
          e'.channel = if e.message.isChannelVoice then t'.channel else e.channel)
        t.events t'.events) ∧
    (∀ i j t u, i < j → tracks[i]? = some t → tracks[j]? = some u →
      t.keepsChannel → u.keepsChannel → keptBefore tracks j < keptBefore tracks i + 255 →
      ((allocateChannels tracks)[i]?.map Track.channel) ≠
        (allocateChannels tracks)[j]?.map Track.channel) ∧
    allocateChannels (allocateChannels tracks) = allocateChannels tracks ∧
    allocateChannels (tracks.map Track.sort) = (allocateChannels tracks).map Track.sort := by
  refine ⟨length_allocateChannelsFrom 0 tracks, ?_, ?_, ?_, ?_⟩
  · intro i t ht
    refine ⟨t.onChannel (t.channelBehind (keptBefore tracks i)), ?_, rfl, ?_, ?_⟩
    · rw [getElem?_allocateChannels, ht, Option.map_some]
    · exact t.channelBehind_eq_percussionChannel_iff _
    · exact t.forall₂_onChannel_events _
  · intro i j t u hij ht hu htk huk hround hsame
    have hlt := keptBefore_lt ht htk hij
    rw [getElem?_allocateChannels, getElem?_allocateChannels, ht, hu] at hsame
    have hmelodic : melodicChannel (keptBefore tracks i) =
        melodicChannel (keptBefore tracks j) := by
      rw [Track.keepsChannel, Bool.and_eq_true, Bool.not_eq_true'] at htk huk
      simpa [Track.channelBehind, htk.1, huk.1] using hsame
    rw [melodicChannel_eq_iff] at hmelodic
    omega
  · exact allocateChannels_allocateChannels tracks
  · exact allocateChannelsFrom_map Track.sort_isPercussion Track.sort_hasNotes
      Track.onChannel_sort 0 tracks

end DseMidi
