import EndpointSecurity.Spec.AuthOnce
import EndpointSecurity.Spec.CacheVerdicts
import EndpointSecurity.Spec.References
import EndpointSecurity.Spec.Fork
import EndpointSecurity.Spec.WatchdogPass
import EndpointSecurity.Spec.ClientWatchdog
import EndpointSecurity.Spec.ClientTimeouts
import EndpointSecurity.Spec.ClientStats
import EndpointSecurity.Spec.ClientArrival
import EndpointSecurity.Spec.ClientLife
import EndpointSecurity.Spec.ClientWakeup
import EndpointSecurity.Spec.FireTime
import EndpointSecurity.Spec.QueueDepth
import EndpointSecurity.Spec.QueueFull
import EndpointSecurity.Spec.SequenceGaps
import EndpointSecurity.Spec.GapRace
import EndpointSecurity.Spec.StopRequest
import EndpointSecurity.Spec.JsonCopies
import EndpointSecurity.Spec.Subscriptions
import EndpointSecurity.Spec.Availability
import EndpointSecurity.Spec.EventTables
import EndpointSecurity.Spec.RecordTables
import EndpointSecurity.Spec.Muting
import EndpointSecurity.Spec.FieldTypes
import EndpointSecurity.Spec.HandlerFailures
import EndpointSecurity.Spec.RetryLoops
import EndpointSecurity.Spec.HeapContents
import EndpointSecurity.Spec.RespondTo
import EndpointSecurity.Spec.VersionGates
import EndpointSecurity.Spec.CacheableEvents
