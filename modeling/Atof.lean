import Atof.VoiceRoundTrip
import Atof.History
import Atof.HonestNetwork
import Atof.Relay
import Atof.Panics
import Atof.Ghosts
import Atof.Unforgeable
import Atof.Oversized
import Atof.Hearing
import Atof.Enrolment
import Atof.Shutdown
import Atof.AudioCodec
import Atof.Ocb2
import Atof.VarintBounds
import Atof.VoiceBuffer
import Atof.Recipients
import Atof.Microphone
import Atof.Resync
import Atof.Completion
import Atof.Alone
import Atof.Frozen
import Atof.Delivery
import Atof.Stutter
import Atof.Opening
import Atof.Capture
import Atof.Playback
import Atof.Returning
import Atof.Call
import Atof.Blame
import Atof.VoiceLink
import Atof.Ping
import Atof.VarintShortest
import Atof.Broadcast
import Atof.Service
