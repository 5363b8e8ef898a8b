import SyServer.AbsentValue
import SyServer.AbsoluteForm
import SyServer.Accept
import SyServer.Agreed
import SyServer.Armed
import SyServer.Asserts
import SyServer.Attentive
import SyServer.Behind
import SyServer.BodyPhase
import SyServer.Bookkeeping
import SyServer.Boundary
import SyServer.Bounds
import SyServer.Channel
import SyServer.Chunks
import SyServer.ClientStream
import SyServer.CloseHeader
import SyServer.Completion
import SyServer.Containment
import SyServer.ContentLength
import SyServer.Descriptors
import SyServer.Downstream
import SyServer.Expiry
import SyServer.HeaderBlock
import SyServer.IdentityBody
import SyServer.Idle
import SyServer.Isolation
import SyServer.KeepAlive
import SyServer.Lists
import SyServer.Locations
import SyServer.OneResponse
import SyServer.OriginForm
import SyServer.Ownership
import SyServer.Pieces
import SyServer.PoolCount
import SyServer.PoolNumbers
import SyServer.Refusal
import SyServer.Rejected
import SyServer.Responded
import SyServer.Rounds
import SyServer.Sifts
import SyServer.SplitValue
import SyServer.StaticFile
import SyServer.Supervisor
import SyServer.Sweep
import SyServer.Targets
import SyServer.Unmixed
import SyServer.Wedged
