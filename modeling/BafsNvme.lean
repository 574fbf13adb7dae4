import BafsNvme.SequentialClient
import BafsNvme.CompletionPoll
import BafsNvme.CallTermination
import BafsNvme.StatusText
import BafsNvme.ControllerReset
import BafsNvme.ModuleLifecycle
import BafsNvme.RingOccupancy
import BafsNvme.RetireOrder
import BafsNvme.InitRegisters
import BafsNvme.QueueGrants
import BafsNvme.SequentialCalls
import BafsNvme.Doorbells
import BafsNvme.PageOwnership
import BafsNvme.PrpSources
