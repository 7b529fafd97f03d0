import LearningSwitch.EthaneInit
import LearningSwitch.FloodOwnership
import LearningSwitch.L2Padding
import LearningSwitch.MainLoopForwards
import LearningSwitch.MbufRuns
import LearningSwitch.MempoolRefinement
import LearningSwitch.PatriciaRoutes
import LearningSwitch.PortMask
import LearningSwitch.RangeSelection
import LearningSwitch.RingAlone
import LearningSwitch.RingProgress
import LearningSwitch.RingReturns
import LearningSwitch.RuleIndex
import LearningSwitch.StageOrder
import LearningSwitch.StaleBytes
import LearningSwitch.TableBounds
import LearningSwitch.TimerPeriod
import LearningSwitch.TxQueueSharing
